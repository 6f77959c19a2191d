import SafeNetwork.Types
import Mathlib.Data.List.MinMax

/-!
# Network knowledge

A node's view of the network (`NetworkKnowledge`): our section's signed SAP, the chain of
section keys from genesis to its key, the section tree and our section's members. The
struct and its methods live outside this repository's sources; each definition below that
stands for one of them is modelled from the spec (§3, §4.1) and says so.

* `closestSignedSapWithChain_spec`: the SAP of a name is that of the longest matching
  prefix of the tree, and there is none when no prefix of the tree matches;
* `getProofChainToCurrentSection_spec`: a proof chain from a key of our chain ends at our
  section key;
* `updateKnowledgeIfValid_of_valid`: an update whose chain verifies (rules 1 and 2) and
  whose member set, if any, holds every elder of its SAP (rule 4) is applied, and any other
  is rejected as untrusted;
* `updateKnowledgeIfValid_false`: an update that reports no change changes nothing;
* `updateKnowledgeIfValid_wellFormed`: a trusted update keeps one tree entry per prefix, each
  with a chain that ends at its key, and only peers our prefix matches.
-/

namespace SafeNetwork

/-- A node's knowledge of the network: our section's signed SAP and the chain of section
keys from genesis to its key, the section tree (the signed SAP and proof chain of every
known section, ours included) and the states of our section's members. -/
structure NetworkKnowledge where
  signedSap : SectionAuthorityProvider
  sectionChain : List BlsPublicKey
  sectionTree : List SectionTreeUpdate
  sectionPeers : List NodeState
  chain_last : sectionChain.getLast? = some signedSap.sectionKey

namespace NetworkKnowledge

variable (nk : NetworkKnowledge)

/-- Our section's current key. -/
def sectionKey : BlsPublicKey := nk.signedSap.sectionKey

/-- Our section's prefix. -/
def sectionPrefix : Prefix := nk.signedSap.sectionPrefix

/-- The members of our section: the peers whose state is `joined`. -/
def members : List NodeState := nk.sectionPeers.filter (·.state == .joined)

/-- Whether a member of our section has this name. -/
def isMember (name : XorName) : Bool := nk.members.any (·.name == name)

/-- The keys we know: those of our chain and of every proof chain in the tree. -/
def knownKeys : List BlsPublicKey := nk.sectionChain ++ nk.sectionTree.flatMap (·.proofChain)

/-- Modelled from the spec: `get_proof_chain_to_current_section` (§4.1
`get_proof_chain_to(key) → chain | NotFound`): the part of our chain from `key` to our
section key, when `key` is on it. -/
def getProofChainToCurrentSection (key : BlsPublicKey) : Option (List BlsPublicKey) :=
  if key ∈ nk.sectionChain then some (nk.sectionChain.dropWhile (· != key)) else none

/-- The entry of the section tree whose prefix is the longest one that matches `name`. -/
def closestEntry (name : XorName) : Option SectionTreeUpdate :=
  (nk.sectionTree.filter (·.signedSap.sectionPrefix.matches name)).argmax
    (·.signedSap.sectionPrefix.bits.length)

/-- Modelled from the spec: `closest_signed_sap_with_chain` (§4.1): the signed SAP of the
tree whose prefix is the longest prefix of `name`, with its proof chain; none when no prefix
of the tree matches (§4.2 and scenario 4: `NoMatchingSection`), as `generate_dst` finds no
route then. The test `ae_redirect_to_other_section` of `anti_entropy.rs` expects our own SAP
in that case instead. -/
def closestSignedSapWithChain (name : XorName) :
    Option (SectionAuthorityProvider × List BlsPublicKey) :=
  (nk.closestEntry name).map fun e => (e.signedSap, e.proofChain)

/-- Modelled from the spec: `generate_dst` (§3 Dst, §4.2): the destination of a message for
`name`, with the key we hold for its section: ours when our prefix matches it, else that of
the longest matching prefix of the tree; no route when there is none. -/
def generateDst (name : XorName) : Except Error Dst :=
  if nk.sectionPrefix.matches name then .ok ⟨name, nk.sectionKey⟩
  else match nk.closestEntry name with
    | some e => .ok ⟨name, e.signedSap.sectionKey⟩
    | none => .error .noMatchingSection

/-- Our section's elders (`elders()`). -/
def elders : List Peer := nk.signedSap.elders

/-- Modelled from the spec: `section_tree().get_signed(p)` (§3 Section tree, a mapping from
prefixes to signed SAPs): the signed SAP of the tree's entry for `p`, if it has one. -/
def getSigned (p : Prefix) : Option SectionAuthorityProvider :=
  (nk.sectionTree.find? (·.signedSap.sectionPrefix = p)).map (·.signedSap)

/-! ## Lookups -/

variable {nk} {name : XorName}

theorem closestEntry_spec {e : SectionTreeUpdate} (h : nk.closestEntry name = some e) :
    e ∈ nk.sectionTree ∧ e.signedSap.sectionPrefix.matches name ∧
      ∀ e' ∈ nk.sectionTree, e'.signedSap.sectionPrefix.matches name →
        e'.signedSap.sectionPrefix.bits.length ≤ e.signedSap.sectionPrefix.bits.length := by
  unfold closestEntry at h
  obtain ⟨he, hm⟩ := List.mem_filter.1 (List.argmax_mem h)
  refine ⟨he, hm, fun e' he' hm' => ?_⟩
  have hf : e' ∈ nk.sectionTree.filter (·.signedSap.sectionPrefix.matches name) :=
    List.mem_filter.2 ⟨he', hm'⟩
  simpa using List.le_of_mem_argmax hf h

theorem closestEntry_eq_none :
    nk.closestEntry name = none ↔ ∀ e ∈ nk.sectionTree, e.signedSap.sectionPrefix.matches name = false := by
  simp [closestEntry, List.argmax_eq_none, List.filter_eq_nil_iff]

/-- The SAP of a name: that of the longest matching prefix of the tree, with its proof
chain, and none when no prefix of the tree matches. -/
theorem closestSignedSapWithChain_spec (nk : NetworkKnowledge) (name : XorName) :
    (∃ e, nk.closestEntry name = some e ∧
      nk.closestSignedSapWithChain name = some (e.signedSap, e.proofChain)) ∨
    ((∀ e ∈ nk.sectionTree, e.signedSap.sectionPrefix.matches name = false) ∧
      nk.closestSignedSapWithChain name = none) := by
  rcases h : nk.closestEntry name with _ | e
  · exact .inr ⟨closestEntry_eq_none.1 h, by simp [closestSignedSapWithChain, h]⟩
  · exact .inl ⟨e, rfl, by simp [closestSignedSapWithChain, h]⟩

theorem getLast?_dropWhile_ne {l : List BlsPublicKey} {key : BlsPublicKey} (h : key ∈ l) :
    (l.dropWhile (· != key)).getLast? = l.getLast? := by
  induction l with
  | nil => cases h
  | cons a l ih =>
    by_cases ha : a = key
    · simp [ha]
    · have hl : key ∈ l := (List.mem_cons.1 h).resolve_left (Ne.symm ha)
      have hne : l ≠ [] := List.ne_nil_of_mem hl
      rw [List.dropWhile_cons, if_pos (by simpa using ha), ih hl]
      obtain ⟨b, l', rfl⟩ := List.exists_cons_of_ne_nil hne
      simp

theorem head?_dropWhile_ne {l : List BlsPublicKey} {key : BlsPublicKey} (h : key ∈ l) :
    (l.dropWhile (· != key)).head? = some key := by
  induction l with
  | nil => cases h
  | cons a l ih =>
    by_cases ha : a = key
    · simp [ha]
    · rw [List.dropWhile_cons, if_pos (by simpa using ha),
        ih ((List.mem_cons.1 h).resolve_left (Ne.symm ha))]

/-- A proof chain to our section from a key of our chain starts at that key, is the rest of
our chain, and ends at our section key. -/
theorem getProofChainToCurrentSection_spec {key : BlsPublicKey} (h : key ∈ nk.sectionChain) :
    ∃ c, nk.getProofChainToCurrentSection key = some c ∧ c.head? = some key ∧
      c <:+ nk.sectionChain ∧ c.getLast? = some nk.sectionKey :=
  ⟨_, if_pos h, head?_dropWhile_ne h, List.dropWhile_suffix _,
    (getLast?_dropWhile_ne h).trans nk.chain_last⟩

theorem getProofChainToCurrentSection_eq_none {key : BlsPublicKey} (h : key ∉ nk.sectionChain) :
    nk.getProofChainToCurrentSection key = none := if_neg h

/-- Modelled from the spec: `SectionsDAG::get_parent_key` on our chain (§3: every key but
genesis has one parent): the key before `key`, none for the genesis key; `none` for a key not
on the chain, whose error the callers discard. -/
def getParentKey (key : BlsPublicKey) : Option (Option BlsPublicKey) :=
  if key ∈ nk.sectionChain then some (nk.sectionChain.takeWhile (· != key)).getLast? else none

/-- The genesis key (`SectionsDAG::genesis_key`): the first key of our chain. -/
def genesisKey : BlsPublicKey := nk.sectionChain.headD nk.sectionKey

/-- When our chain ends with `prev` and then our key, each key once, the parent of our key is
`prev`. -/
theorem getParentKey_sectionKey {older : List BlsPublicKey} {prev : BlsPublicKey}
    (hchain : nk.sectionChain = older ++ [prev, nk.sectionKey]) (hnodup : nk.sectionChain.Nodup) :
    nk.getParentKey nk.sectionKey = some (some prev) := by
  rw [hchain] at hnodup
  obtain ⟨-, hpair, hdis⟩ := List.nodup_append.1 hnodup
  have hne : prev ≠ nk.sectionKey := by simpa using hpair
  have hpos : ∀ a ∈ older, (a != nk.sectionKey) = true := fun a ha => by
    simpa using fun h : a = nk.sectionKey => hdis ha (by simp [h])
  simp [getParentKey, hchain, List.takeWhile_append_of_pos hpos, hne]

/-! ## Applying a section tree update -/

/-- Whether `chain` proves a key newer than `key`: `key` is on it, before its last key. -/
def provesNewer (key : BlsPublicKey) (chain : List BlsPublicKey) : Bool :=
  key ∈ chain && chain.getLast? != some key

/-- The keys of `chain` after `key`. -/
def keysAfter (key : BlsPublicKey) (chain : List BlsPublicKey) : List BlsPublicKey :=
  (chain.dropWhile (· != key)).tail

theorem getLast?_keysAfter {key s : BlsPublicKey} {chain : List BlsPublicKey}
    (h : provesNewer key chain ∧ chain.getLast? = some s) : (keysAfter key chain).getLast? = some s := by
  simp only [provesNewer, Bool.and_eq_true, decide_eq_true_eq, bne_iff_ne, ne_eq] at h
  obtain ⟨⟨hk, hne⟩, hs⟩ := h
  have hl := (getLast?_dropWhile_ne hk).trans hs
  have hh := head?_dropWhile_ne hk
  unfold keysAfter
  generalize chain.dropWhile (· != key) = d at hl hh
  match d, hh with
  | [_], _ => simp_all
  | _ :: b :: l, _ => simpa using hl

/-- The tree with `u` in place of the entry of its prefix and of the entries of the
ancestors of its prefix, which a split has made irrelevant (rule 5). -/
def insertEntry (tree : List SectionTreeUpdate) (u : SectionTreeUpdate) : List SectionTreeUpdate :=
  u :: tree.filter fun e => !e.signedSap.sectionPrefix.bits.isPrefixOf u.signedSap.sectionPrefix.bits

/-- Rules 1 and 2: the update's proof chain has distinct keys, starts at a key we know and
ends at its SAP's key. The signatures along the chain are not modelled. -/
def verifies (u : SectionTreeUpdate) : Bool :=
  decide u.proofChain.Nodup && u.proofChain.head?.any (· ∈ nk.knownKeys) &&
    u.proofChain.getLast? == some u.signedSap.sectionKey

/-- Rule 3: an update of our own section advances our knowledge when its chain proves a key
newer than ours. Its SAP becomes ours, its chain extends ours, and the peers outside its
prefix (after a split) are dropped. -/
def updateOurSection (u : SectionTreeUpdate) : Bool × NetworkKnowledge :=
  if h : provesNewer nk.sectionKey u.proofChain ∧ u.proofChain.getLast? = some u.signedSap.sectionKey then
    (true, { signedSap := u.signedSap
             sectionChain := nk.sectionChain ++ keysAfter nk.sectionKey u.proofChain
             sectionTree := insertEntry nk.sectionTree u
             sectionPeers := nk.sectionPeers.filter (u.signedSap.sectionPrefix.matches ·.name)
             chain_last := by rw [List.getLast?_append, getLast?_keysAfter h]; rfl })
  else (false, nk)

/-- Whether an update of another section advances the tree: the tree has no entry for its
prefix, or the update's chain proves a key newer than that of the entry. -/
def treeAdvances (u : SectionTreeUpdate) : Bool :=
  match nk.sectionTree.find? (·.signedSap.sectionPrefix = u.signedSap.sectionPrefix) with
  | some e => provesNewer e.signedSap.sectionKey u.proofChain
  | none => true

/-- An update of another section: when it advances the tree, it takes the place of its
prefix's entry. -/
def updateSectionTree (u : SectionTreeUpdate) : Bool × NetworkKnowledge :=
  if nk.treeAdvances u then (true, { nk with sectionTree := insertEntry nk.sectionTree u })
  else (false, nk)

/-- The peers with `s` in place of the state of its name, or with `s` added. -/
def updatePeers (ps : List NodeState) (s : NodeState) : List NodeState :=
  if ps.any (·.name == s.name) then ps.map fun p => if p.name = s.name then s else p else ps ++ [s]

/-- The member states of an AE Update whose names our prefix matches, merged into ours. -/
def mergeMembers (incoming : List NodeState) : Bool × NetworkKnowledge :=
  let peers := incoming.foldl
    (fun ps s => if nk.sectionPrefix.matches s.name then updatePeers ps s else ps) nk.sectionPeers
  (peers != nk.sectionPeers, { nk with sectionPeers := peers })

/-- Our section's update or the tree's, as the update's prefix matches our name or not. -/
def applyUpdate (u : SectionTreeUpdate) (ourName : XorName) : Bool × NetworkKnowledge :=
  if u.signedSap.sectionPrefix.matches ourName then nk.updateOurSection u else nk.updateSectionTree u

/-- The member states an AE Update carries, merged; nothing for the other kinds. -/
def mergeUpdatedMembers : Option (List NodeState) → Bool × NetworkKnowledge
  | some ms => nk.mergeMembers ms
  | none => (false, nk)

/-- Rule 4: a provided member set's elder subset is the incoming SAP's elder set, that is, it
holds every elder of the SAP as a joined member. The signature on the set is not modelled. -/
def membersCoverElders (sap : SectionAuthorityProvider) : Option (List NodeState) → Bool
  | some ms => sap.elders.all fun e => ms.any fun s => s.name == e.name && s.state == .joined
  | none => true

/-- Modelled from the spec: `update_knowledge_if_valid` (§4.1): validate the update against
the keys we know (rules 1 and 2) and the member set it carries against its SAP (rule 4), apply
it to our section or to the tree, and merge the member states; `true` iff our knowledge
advanced. An update that fails a check changes nothing. -/
def updateKnowledgeIfValid (u : SectionTreeUpdate) (updatedMembers : Option (List NodeState))
    (ourName : XorName) : Except Error (Bool × NetworkKnowledge) :=
  if nk.verifies u && membersCoverElders u.signedSap updatedMembers then
    let r₁ := nk.applyUpdate u ourName
    let r₂ := r₁.2.mergeUpdatedMembers updatedMembers
    .ok (r₁.1 || r₂.1, r₂.2)
  else .error .untrustedUpdate

/-- An update that passes the checks is applied, and its member states merged. -/
theorem updateKnowledgeIfValid_of_valid {u : SectionTreeUpdate} {ms : Option (List NodeState)}
    {ourName : XorName} (hv : nk.verifies u) (hms : membersCoverElders u.signedSap ms) :
    nk.updateKnowledgeIfValid u ms ourName =
      .ok ((nk.applyUpdate u ourName).1 || ((nk.applyUpdate u ourName).2.mergeUpdatedMembers ms).1,
        ((nk.applyUpdate u ourName).2.mergeUpdatedMembers ms).2) := by
  simp [updateKnowledgeIfValid, hv, hms]

/-- An AE Update whose member set misses an elder of its SAP is rejected, whatever its chain
proves. -/
theorem updateKnowledgeIfValid_of_members {u : SectionTreeUpdate} {ms : Option (List NodeState)}
    {ourName : XorName} (hms : membersCoverElders u.signedSap ms = false) :
    nk.updateKnowledgeIfValid u ms ourName = .error .untrustedUpdate := by
  simp [updateKnowledgeIfValid, hms]

/-- A member set holds the elders exactly when each elder of the SAP is a joined member of
it. -/
theorem membersCoverElders_some_iff {sap : SectionAuthorityProvider} {ms : List NodeState} :
    membersCoverElders sap (some ms) ↔
      ∀ e ∈ sap.elders, ∃ s ∈ ms, s.name = e.name ∧ s.state = .joined := by
  simp [membersCoverElders]

/-- Our section's elders are members of it (§3: the members are consistent with our signed
SAP, the elders among them). -/
def EldersAreMembers (nk : NetworkKnowledge) : Prop := ∀ e ∈ nk.elders, nk.isMember e.name

instance : DecidablePred EldersAreMembers := fun nk =>
  inferInstanceAs (Decidable (∀ e ∈ nk.elders, nk.isMember e.name = true))

/-- The members of knowledge whose elders are members pass rule 4 against its own SAP. -/
theorem EldersAreMembers.cover (h : nk.EldersAreMembers) :
    membersCoverElders nk.signedSap (some nk.members) := by
  refine membersCoverElders_some_iff.2 fun e he => ?_
  obtain ⟨s, hs, hn⟩ := List.any_eq_true.1 (h e he)
  exact ⟨s, hs, by simpa using hn, by simpa using (List.mem_filter.1 hs).2⟩

theorem applyUpdate_false {u : SectionTreeUpdate} {ourName : XorName}
    (h : (nk.applyUpdate u ourName).1 = false) : (nk.applyUpdate u ourName).2 = nk := by
  unfold applyUpdate updateOurSection updateSectionTree at h ⊢
  split_ifs at h ⊢ <;> simp_all

theorem mergeUpdatedMembers_false {ms : Option (List NodeState)}
    (h : (nk.mergeUpdatedMembers ms).1 = false) : (nk.mergeUpdatedMembers ms).2 = nk := by
  cases ms with
  | none => rfl
  | some ms =>
    simp only [mergeUpdatedMembers, mergeMembers, bne_eq_false_iff_eq] at h ⊢
    rw [h]

/-- An update that reports no advance leaves the knowledge as it was. -/
theorem updateKnowledgeIfValid_false {u : SectionTreeUpdate} {ms : Option (List NodeState)}
    {ourName : XorName} {nk' : NetworkKnowledge}
    (h : nk.updateKnowledgeIfValid u ms ourName = .ok (false, nk')) : nk' = nk := by
  unfold updateKnowledgeIfValid at h
  split at h
  · simp only [Except.ok.injEq, Prod.mk.injEq, Bool.or_eq_false_iff] at h
    obtain ⟨⟨h₁, h₂⟩, rfl⟩ := h
    rw [mergeUpdatedMembers_false h₂, applyUpdate_false h₁]
  · cases h

/-- An update whose proof chain starts at a key we do not know is not trusted. -/
theorem updateKnowledgeIfValid_untrusted {u : SectionTreeUpdate} {ms : Option (List NodeState)}
    {ourName : XorName} {k : BlsPublicKey} (hhead : u.proofChain.head? = some k)
    (hk : k ∉ nk.knownKeys) : nk.updateKnowledgeIfValid u ms ourName = .error .untrustedUpdate := by
  have hver : nk.verifies u = false := by simp [verifies, hhead, hk]
  simp [updateKnowledgeIfValid, hver]

/-- A trusted update that carries no member states is applied, and nothing more. -/
theorem updateKnowledgeIfValid_none {u : SectionTreeUpdate} {ourName : XorName}
    (h : nk.verifies u = true) : nk.updateKnowledgeIfValid u none ourName = .ok (nk.applyUpdate u ourName) := by
  simp [updateKnowledgeIfValid, h, mergeUpdatedMembers, membersCoverElders]

/-! ## What an update does to the chain -/

theorem updateOurSection_chain (u : SectionTreeUpdate) :
    nk.sectionChain <+: (nk.updateOurSection u).2.sectionChain := by
  unfold updateOurSection
  split
  · exact List.prefix_append _ _
  · exact List.prefix_refl _

theorem applyUpdate_chain (u : SectionTreeUpdate) (ourName : XorName) :
    nk.sectionChain <+: (nk.applyUpdate u ourName).2.sectionChain := by
  unfold applyUpdate updateSectionTree
  split
  · exact nk.updateOurSection_chain u
  · split <;> exact List.prefix_refl _

@[simp] theorem mergeUpdatedMembers_signedSap (ms : Option (List NodeState)) :
    (nk.mergeUpdatedMembers ms).2.signedSap = nk.signedSap := by
  cases ms <;> rfl

@[simp] theorem mergeUpdatedMembers_sectionChain (ms : Option (List NodeState)) :
    (nk.mergeUpdatedMembers ms).2.sectionChain = nk.sectionChain := by
  cases ms <;> rfl

@[simp] theorem mergeUpdatedMembers_sectionTree (ms : Option (List NodeState)) :
    (nk.mergeUpdatedMembers ms).2.sectionTree = nk.sectionTree := by
  cases ms <;> rfl

/-- A trusted update only extends our section chain. -/
theorem updateKnowledgeIfValid_chain {u : SectionTreeUpdate} {ms : Option (List NodeState)}
    {ourName : XorName} {b : Bool} {nk' : NetworkKnowledge}
    (h : nk.updateKnowledgeIfValid u ms ourName = .ok (b, nk')) :
    nk.sectionChain <+: nk'.sectionChain := by
  unfold updateKnowledgeIfValid at h
  split at h
  · simp only [Except.ok.injEq, Prod.mk.injEq] at h
    rw [← h.2, mergeUpdatedMembers_sectionChain]
    exact nk.applyUpdate_chain u ourName
  · cases h

/-- An update of our section whose proof chain has distinct keys and runs from our key to
another one brings us to its SAP, and extends our chain with the rest of its proof chain. -/
theorem updateKnowledgeIfValid_adopts {u : SectionTreeUpdate} {ms : Option (List NodeState)}
    {ourName : XorName} (hnodup : u.proofChain.Nodup) (hhead : u.proofChain.head? = some nk.sectionKey)
    (hlast : u.proofChain.getLast? = some u.signedSap.sectionKey)
    (hne : u.signedSap.sectionKey ≠ nk.sectionKey) (hsec : u.signedSap.sectionPrefix.matches ourName)
    (hms : membersCoverElders u.signedSap ms) :
    ∃ nk', nk.updateKnowledgeIfValid u ms ourName = .ok (true, nk') ∧
      nk'.signedSap = u.signedSap ∧ nk'.sectionChain = nk.sectionChain ++ u.proofChain.tail := by
  have hmem : nk.sectionKey ∈ u.proofChain := List.mem_of_mem_head? hhead
  have hknown : nk.sectionKey ∈ nk.knownKeys :=
    List.mem_append_left _ (List.mem_of_getLast?_eq_some nk.chain_last)
  have hver : nk.verifies u := by
    simp [verifies, hnodup, hhead, hknown, hlast]
  have hnewer : provesNewer nk.sectionKey u.proofChain ∧
      u.proofChain.getLast? = some u.signedSap.sectionKey :=
    ⟨by simp [provesNewer, hmem, hlast, hne], hlast⟩
  have hdrop : u.proofChain.dropWhile (· != nk.sectionKey) = u.proofChain := by
    cases hc : u.proofChain with
    | nil => simp [hc] at hhead
    | cons a l =>
      rw [hc] at hhead
      obtain rfl := Option.some.inj hhead
      simp
  refine ⟨((nk.updateOurSection u).2.mergeUpdatedMembers ms).2, ?_, ?_, ?_⟩
  · simp [updateKnowledgeIfValid, hver, hms, applyUpdate, hsec, updateOurSection, dif_pos hnewer]
  · simp [updateOurSection, dif_pos hnewer]
  · simp [updateOurSection, dif_pos hnewer, keysAfter, hdrop]

/-! ## Well-formed knowledge -/

/-- A section tree as trusted updates leave it: one entry per prefix (§4.1), each with a proof
chain that ends at its SAP's key. -/
structure TreeWellFormed (tree : List SectionTreeUpdate) : Prop where
  prefixes_nodup : (tree.map (·.signedSap.sectionPrefix)).Nodup
  chains_end : ∀ e ∈ tree, e.proofChain.getLast? = some e.signedSap.sectionKey

/-- Knowledge as trusted updates leave it: a well-formed tree, and peers whose names our
prefix matches. -/
structure WellFormed (nk : NetworkKnowledge) : Prop where
  tree : TreeWellFormed nk.sectionTree
  peers_match : ∀ s ∈ nk.sectionPeers, nk.sectionPrefix.matches s.name

theorem verifies_chain_end {u : SectionTreeUpdate} (h : nk.verifies u) :
    u.proofChain.getLast? = some u.signedSap.sectionKey := by
  simp only [verifies, Bool.and_eq_true, beq_iff_eq] at h
  exact h.2

/-- The entries of an update's prefix and of that prefix's ancestors make way for it, so a
tree keeps one entry per prefix. -/
theorem insertEntry_wellFormed {tree : List SectionTreeUpdate} {u : SectionTreeUpdate}
    (h : TreeWellFormed tree) (hu : u.proofChain.getLast? = some u.signedSap.sectionKey) :
    TreeWellFormed (insertEntry tree u) := by
  constructor
  · rw [insertEntry, List.map_cons, List.nodup_cons]
    refine ⟨fun hmem => ?_, h.prefixes_nodup.sublist ((List.filter_sublist tree).map _)⟩
    obtain ⟨e, he, hpre⟩ := List.mem_map.1 hmem
    have hkept := (List.mem_filter.1 he).2
    rw [hpre, List.isPrefixOf_iff_prefix.2 (List.prefix_refl _)] at hkept
    cases hkept
  · intro e he
    rcases List.mem_cons.1 he with rfl | he
    · exact hu
    · exact h.chains_end e (List.mem_filter.1 he).1

theorem updateOurSection_wellFormed (h : nk.WellFormed) {u : SectionTreeUpdate}
    (hu : u.proofChain.getLast? = some u.signedSap.sectionKey) :
    (nk.updateOurSection u).2.WellFormed := by
  unfold updateOurSection
  split
  · exact ⟨insertEntry_wellFormed h.tree hu, fun s hs => (List.mem_filter.1 hs).2⟩
  · exact h

theorem updateSectionTree_wellFormed (h : nk.WellFormed) {u : SectionTreeUpdate}
    (hu : u.proofChain.getLast? = some u.signedSap.sectionKey) :
    (nk.updateSectionTree u).2.WellFormed := by
  unfold updateSectionTree
  split
  · exact ⟨insertEntry_wellFormed h.tree hu, h.peers_match⟩
  · exact h

theorem applyUpdate_wellFormed (h : nk.WellFormed) {u : SectionTreeUpdate}
    (hu : u.proofChain.getLast? = some u.signedSap.sectionKey) (ourName : XorName) :
    (nk.applyUpdate u ourName).2.WellFormed := by
  unfold applyUpdate
  split
  · exact updateOurSection_wellFormed h hu
  · exact updateSectionTree_wellFormed h hu

theorem mem_updatePeers {ps : List NodeState} {s s' : NodeState} (h : s' ∈ updatePeers ps s) :
    s' ∈ ps ∨ s' = s := by
  unfold updatePeers at h
  split at h
  · obtain ⟨p, hp, rfl⟩ := List.mem_map.1 h
    by_cases hn : p.name = s.name <;> simp [hn, hp]
  · simpa using h

/-- Merging member states keeps only peers our prefix matches: a state it does not match is
skipped. -/
theorem foldl_updatePeers_match (incoming : List NodeState) {ps : List NodeState}
    (h : ∀ s ∈ ps, nk.sectionPrefix.matches s.name) :
    ∀ s ∈ incoming.foldl
      (fun ps s => if nk.sectionPrefix.matches s.name then updatePeers ps s else ps) ps,
      nk.sectionPrefix.matches s.name := by
  induction incoming generalizing ps with
  | nil => exact h
  | cons s ss ih =>
    refine ih fun s' hs' => ?_
    dsimp only at hs'
    split at hs'
    · rcases mem_updatePeers hs' with hs' | rfl
      · exact h s' hs'
      · assumption
    · exact h s' hs'

theorem mergeUpdatedMembers_wellFormed (h : nk.WellFormed) (ms : Option (List NodeState)) :
    (nk.mergeUpdatedMembers ms).2.WellFormed := by
  cases ms with
  | none => exact h
  | some ms => exact ⟨h.tree, foldl_updatePeers_match ms h.peers_match⟩

/-- A trusted update keeps the knowledge well formed. -/
theorem updateKnowledgeIfValid_wellFormed (h : nk.WellFormed) {u : SectionTreeUpdate}
    {ms : Option (List NodeState)} {ourName : XorName} {b : Bool} {nk' : NetworkKnowledge}
    (hu : nk.updateKnowledgeIfValid u ms ourName = .ok (b, nk')) : nk'.WellFormed := by
  unfold updateKnowledgeIfValid at hu
  split at hu
  · next hv =>
    simp only [Except.ok.injEq, Prod.mk.injEq] at hu
    rw [← hu.2]
    exact mergeUpdatedMembers_wellFormed
      (applyUpdate_wellFormed h (verifies_chain_end (Bool.and_eq_true _ _ ▸ hv).1) ourName) ms
  · cases hu

end NetworkKnowledge

end SafeNetwork
