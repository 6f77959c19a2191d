import SafeNetwork.History

/-!
# Concurrent updates along one history converge

Our section moves along one history of SAPs: `s₀`, then the SAPs of `later`, with distinct
keys. An AE update of that history (`historyUpdate n`) carries the `n`-th later SAP and the
keys from `s₀`'s up to it. `handle_anti_entropy_msg` checks an update on the snapshot it took
at dispatch and applies it again under the write lock to the knowledge the node holds then
(§4.2, step 1: the second call is authoritative). So, whatever the interleaving of the
handlers of such updates, each with a member set that passes rule 4 (§4.1):

* `updates_converge_over_run`: once every handler has finished, the node holds the SAP of the
  highest update, and its chain is its first chain extended by the keys up to it. No update
  is lost to a race, and none is applied twice.
* `remote_updates_converge_over_run`: the same for AE messages carrying the history of another
  section: the node's tree ends holding that section at the highest update.

Both rest on one argument over positions (`converges_over_run`). A handler's update moves the
node forward (`MovesTo`) when, checked against knowledge at position `m`, it is trusted and
brings the knowledge to the higher of `m` and the update's own position. Each handler is then
followed against the node's position (`handleAntiEntropyStep_moves`): a snapshot that finds
nothing to apply is already at the update's position or past it, and the locked step moves
the node to the higher of the two. The updates of our section's history move it forward
(`updateKnowledgeIfValid_history`), and so do those of another section's history
(`updateKnowledgeIfValid_remote`).
-/

namespace SafeNetwork

/-! ## A history of our section -/

section History

variable (s₀ : SectionAuthorityProvider) (later : List SectionAuthorityProvider)

/-- The SAP of our section after the first `n` SAPs of `later`. -/
def sapAt (n : Nat) : SectionAuthorityProvider := (later.take n).getLastD s₀

/-- The keys of the history from `s₀`'s to that of `sapAt n`. -/
def keysUpTo (n : Nat) : List BlsPublicKey := s₀.sectionKey :: (later.take n).map (·.sectionKey)

/-- The AE update to `sapAt n`, proved by the keys up to it. -/
def historyUpdate (n : Nat) : SectionTreeUpdate := ⟨sapAt s₀ later n, keysUpTo s₀ later n⟩

/-- Knowledge at `sapAt n`: that SAP, and the chain `base` extended by the later keys up to
it. -/
structure AtHistory (base : List BlsPublicKey) (n : Nat) (nk : NetworkKnowledge) : Prop where
  le : n ≤ later.length
  sap : nk.signedSap = sapAt s₀ later n
  chain : nk.sectionChain = base ++ (later.take n).map (·.sectionKey)

/-- The tree's entry for the history's section at position `p`: none at `0`, the update to
`sapAt n` at `n + 1`. -/
def entryAt : Nat → Option SectionTreeUpdate
  | 0 => none
  | n + 1 => some (historyUpdate s₀ later n)

/-- Knowledge of another section whose history this is, with prefix `P`: its tree's entry for
`P` is at position `p`, and it knows the history's first key. -/
structure RemoteAt (P : Prefix) (p : Nat) (nk : NetworkKnowledge) : Prop where
  le : p ≤ later.length + 1
  entry : nk.sectionTree.find? (·.signedSap.sectionPrefix = P) = entryAt s₀ later p
  known : s₀.sectionKey ∈ nk.knownKeys

@[simp] theorem sapAt_zero : sapAt s₀ later 0 = s₀ := rfl

@[simp] theorem sapAt_cons_succ (a : SectionAuthorityProvider) (n : Nat) :
    sapAt s₀ (a :: later) (n + 1) = sapAt a later n :=
  List.getLastD_cons _ _ _

@[simp] theorem keysUpTo_cons_succ (a : SectionAuthorityProvider) (n : Nat) :
    keysUpTo s₀ (a :: later) (n + 1) = s₀.sectionKey :: keysUpTo a later n := rfl

theorem sapAt_mem (n : Nat) : sapAt s₀ later n ∈ s₀ :: later :=
  List.cons_subset_cons _ (List.take_subset _ _) (List.getLastD_mem_cons _ _)

theorem keysUpTo_getLast? (n : Nat) :
    (keysUpTo s₀ later n).getLast? = some (sapAt s₀ later n).sectionKey := by
  rw [keysUpTo, List.getLast?_cons, ← List.getLastD_eq_getLast?, List.getLastD_map]
  rfl

theorem keysUpTo_nodup (hK : ((s₀ :: later).map (·.sectionKey)).Nodup) (n : Nat) :
    (keysUpTo s₀ later n).Nodup :=
  hK.sublist (((List.take_sublist n later).map _).cons_cons _)

theorem level_historyUpdate {n : Nat} (hn : n ≤ later.length) :
    (historyUpdate s₀ later n).proofChain.length - 1 = n := by
  simp [historyUpdate, keysUpTo, hn]

variable {s₀ later}

/-- A later SAP's key is not the first one's. -/
theorem sapAt_cons_key_ne {a : SectionAuthorityProvider}
    (hK : ((s₀ :: a :: later).map (·.sectionKey)).Nodup) (m : Nat) :
    (sapAt a later m).sectionKey ≠ s₀.sectionKey := fun h => by
  have hmem : (sapAt a later m).sectionKey ∈ (a :: later).map (·.sectionKey) :=
    List.mem_map_of_mem _ (sapAt_mem a later m)
  rw [h] at hmem
  exact (List.nodup_cons.1 hK).1 hmem

/-- The key of `sapAt m` is among the keys up to `sapAt n` exactly when `m ≤ n`. -/
theorem key_mem_keysUpTo_iff (hK : ((s₀ :: later).map (·.sectionKey)).Nodup) {m : Nat}
    (hm : m ≤ later.length) (n : Nat) :
    (sapAt s₀ later m).sectionKey ∈ keysUpTo s₀ later n ↔ m ≤ n := by
  induction later generalizing s₀ m n with
  | nil =>
    obtain rfl : m = 0 := Nat.le_zero.1 hm
    simp [keysUpTo]
  | cons a l ih =>
    cases m with
    | zero => simp [keysUpTo]
    | succ m =>
      have hne := sapAt_cons_key_ne hK m
      cases n with
      | zero => simp [keysUpTo, hne]
      | succ n =>
        rw [sapAt_cons_succ, keysUpTo_cons_succ, List.mem_cons,
          ih (List.nodup_cons.1 hK).2 (Nat.le_of_succ_le_succ hm) n]
        simp [hne]

/-- Positions of the history with the same key are the same. -/
theorem sapAt_key_inj (hK : ((s₀ :: later).map (·.sectionKey)).Nodup) {m n : Nat}
    (hm : m ≤ later.length) (hn : n ≤ later.length)
    (h : (sapAt s₀ later m).sectionKey = (sapAt s₀ later n).sectionKey) : m = n := by
  have hmn := (key_mem_keysUpTo_iff hK hm n).1 (h ▸ (key_mem_keysUpTo_iff hK hn n).2 le_rfl)
  have hnm := (key_mem_keysUpTo_iff hK hn m).1 (h ▸ (key_mem_keysUpTo_iff hK hm m).2 le_rfl)
  omega

theorem keysAfter_keysUpTo (hK : ((s₀ :: later).map (·.sectionKey)).Nodup) {m n : Nat}
    (hmn : m ≤ n) :
    NetworkKnowledge.keysAfter (sapAt s₀ later m).sectionKey (keysUpTo s₀ later n) =
      ((later.take n).drop m).map (·.sectionKey) := by
  induction later generalizing s₀ m n with
  | nil => simp [NetworkKnowledge.keysAfter, keysUpTo, sapAt]
  | cons a l ih =>
    cases m with
    | zero => simp [NetworkKnowledge.keysAfter, keysUpTo]
    | succ m =>
      obtain ⟨n, rfl⟩ : ∃ n', n = n' + 1 := ⟨n - 1, by omega⟩
      have hne := sapAt_cons_key_ne hK m
      rw [sapAt_cons_succ, keysUpTo_cons_succ, NetworkKnowledge.keysAfter, List.dropWhile_cons,
        if_pos (by simpa using hne.symm)]
      exact ih (List.nodup_cons.1 hK).2 (Nat.le_of_succ_le_succ hmn)

/-- The update to `sapAt n` proves a key newer than that of `sapAt m` exactly when `m < n`. -/
theorem provesNewer_keysUpTo (hK : ((s₀ :: later).map (·.sectionKey)).Nodup) {m n : Nat}
    (hm : m ≤ later.length) (hn : n ≤ later.length) :
    NetworkKnowledge.provesNewer (sapAt s₀ later m).sectionKey (keysUpTo s₀ later n) =
      decide (m < n) := by
  have hmem := key_mem_keysUpTo_iff hK hm n
  unfold NetworkKnowledge.provesNewer
  rw [keysUpTo_getLast?]
  by_cases hlt : m < n
  · have hne : (sapAt s₀ later n).sectionKey ≠ (sapAt s₀ later m).sectionKey := fun h =>
      absurd (sapAt_key_inj hK hn hm h) hlt.ne'
    simp [hmem.2 hlt.le, hne, hlt]
  · by_cases hle : m ≤ n
    · obtain rfl : m = n := by omega
      simp
    · have hnot : (sapAt s₀ later m).sectionKey ∉ keysUpTo s₀ later n := fun h => hle (hmem.1 h)
      simp [hnot, hlt]

variable {base : List BlsPublicKey} {m n : Nat} {nk : NetworkKnowledge}

/-- An update of the history is trusted by knowledge that knows the history's first key. -/
theorem verifies_historyUpdate (hK : ((s₀ :: later).map (·.sectionKey)).Nodup) (n : Nat)
    (hknown : s₀.sectionKey ∈ nk.knownKeys) : nk.verifies (historyUpdate s₀ later n) := by
  simp only [NetworkKnowledge.verifies, historyUpdate, keysUpTo_getLast?, beq_self_eq_true,
    Bool.and_true, Bool.and_eq_true, decide_eq_true_eq]
  exact ⟨keysUpTo_nodup s₀ later hK n, by simp [keysUpTo, hknown]⟩

/-- Our section's update to `sapAt n` moves knowledge at `sapAt m` to the later of the two. -/
theorem updateOurSection_history (hK : ((s₀ :: later).map (·.sectionKey)).Nodup)
    (hm : AtHistory s₀ later base m nk) (hn : n ≤ later.length) :
    AtHistory s₀ later base (max m n) (nk.updateOurSection (historyUpdate s₀ later n)).2 ∧
      (m < n → (nk.updateOurSection (historyUpdate s₀ later n)).1 = true) := by
  have hkey : nk.sectionKey = (sapAt s₀ later m).sectionKey := congrArg (·.sectionKey) hm.sap
  have hnewer := provesNewer_keysUpTo hK hm.le hn
  unfold NetworkKnowledge.updateOurSection
  split
  · next h =>
    have hmn : m < n := by simpa [historyUpdate, hkey, hnewer] using h.1
    have htake : later.take m ++ (later.take n).drop m = later.take n := by
      conv_rhs => rw [← List.take_append_drop m (later.take n)]
      rw [List.take_take, min_eq_left hmn.le]
    rw [max_eq_right hmn.le]
    refine ⟨⟨hn, rfl, ?_⟩, fun _ => rfl⟩
    show nk.sectionChain ++ NetworkKnowledge.keysAfter nk.sectionKey (keysUpTo s₀ later n) = _
    rw [hm.chain, hkey, keysAfter_keysUpTo hK hmn.le, List.append_assoc, ← List.map_append, htake]
  · next h =>
    have hmn : ¬ m < n := fun hmn =>
      h ⟨by simp [historyUpdate, hkey, hnewer, hmn], keysUpTo_getLast? s₀ later n⟩
    rw [max_eq_left (not_lt.1 hmn)]
    exact ⟨hm, fun h' => absurd h' hmn⟩

/-- An update of the history with a member set that passes rule 4, checked against knowledge
at `sapAt m` of a node of our section, is trusted; it moves the knowledge to the later of
`sapAt m` and its own SAP, and reports a change whenever it is the later one. -/
theorem updateKnowledgeIfValid_history (hK : ((s₀ :: later).map (·.sectionKey)).Nodup)
    {ourName : XorName} (hpre : ∀ s ∈ s₀ :: later, s.sectionPrefix.matches ourName)
    (hbase : s₀.sectionKey ∈ base) (hm : AtHistory s₀ later base m nk) (hn : n ≤ later.length)
    {ms : Option (List NodeState)}
    (hms : NetworkKnowledge.membersCoverElders (historyUpdate s₀ later n).signedSap ms) :
    ∃ b nk', nk.updateKnowledgeIfValid (historyUpdate s₀ later n) ms ourName = .ok (b, nk') ∧
      AtHistory s₀ later base (max m n) nk' ∧ (m < n → b = true) := by
  have hver := verifies_historyUpdate hK n
    (List.mem_append_left _ (hm.chain ▸ List.mem_append_left _ hbase))
  have hsec : (historyUpdate s₀ later n).signedSap.sectionPrefix.matches ourName :=
    hpre _ (sapAt_mem s₀ later n)
  obtain ⟨hat, hb⟩ := updateOurSection_history hK hm hn
  refine ⟨(nk.updateOurSection (historyUpdate s₀ later n)).1 ||
      ((nk.updateOurSection (historyUpdate s₀ later n)).2.mergeUpdatedMembers ms).1,
    ((nk.updateOurSection (historyUpdate s₀ later n)).2.mergeUpdatedMembers ms).2, ?_,
    ⟨hat.le, ?_, ?_⟩, fun h => by rw [hb h]; rfl⟩
  · simp [NetworkKnowledge.updateKnowledgeIfValid_of_valid hver hms, NetworkKnowledge.applyUpdate,
      hsec]
  · rw [NetworkKnowledge.mergeUpdatedMembers_signedSap]
    exact hat.sap
  · rw [NetworkKnowledge.mergeUpdatedMembers_sectionChain]
    exact hat.chain

/-- Another section's update to `sapAt n` moves the tree's entry for it from position `p` to
the later of `p` and `n + 1`. -/
theorem updateSectionTree_remote (hK : ((s₀ :: later).map (·.sectionKey)).Nodup) {P : Prefix}
    (hP : ∀ s ∈ s₀ :: later, s.sectionPrefix = P) {p : Nat} (hp : RemoteAt s₀ later P p nk)
    (hn : n ≤ later.length) :
    RemoteAt s₀ later P (max p (n + 1)) (nk.updateSectionTree (historyUpdate s₀ later n)).2 ∧
      (p < n + 1 → (nk.updateSectionTree (historyUpdate s₀ later n)).1 = true) := by
  have hpre : (historyUpdate s₀ later n).signedSap.sectionPrefix = P := hP _ (sapAt_mem s₀ later n)
  have hins : RemoteAt s₀ later P (n + 1)
      { nk with sectionTree := NetworkKnowledge.insertEntry nk.sectionTree (historyUpdate s₀ later n) } :=
    ⟨by omega, by simp [NetworkKnowledge.insertEntry, hpre, entryAt],
      List.mem_append_right _ (List.mem_flatMap.2 ⟨_, List.mem_cons_self _ _, List.mem_cons_self _ _⟩)⟩
  unfold NetworkKnowledge.updateSectionTree NetworkKnowledge.treeAdvances
  rw [hpre, hp.entry]
  cases p with
  | zero =>
    rw [max_eq_right (Nat.zero_le _)]
    exact ⟨hins, fun _ => rfl⟩
  | succ m =>
    have hm : m ≤ later.length := by have := hp.le; omega
    simp only [entryAt, historyUpdate, provesNewer_keysUpTo hK hm hn]
    by_cases hmn : m < n
    · rw [if_pos (by simpa using hmn), max_eq_right (by omega)]
      exact ⟨hins, fun _ => rfl⟩
    · rw [if_neg (by simpa using hmn), max_eq_left (by omega)]
      exact ⟨hp, fun h => absurd h (by omega)⟩

/-- An update of another section's history with a member set that passes rule 4, checked
against knowledge whose tree holds that section at position `p`, is trusted; it moves the
entry to the later of `p` and its own position, and reports a change whenever its own is the
later one. -/
theorem updateKnowledgeIfValid_remote (hK : ((s₀ :: later).map (·.sectionKey)).Nodup)
    {P : Prefix} (hP : ∀ s ∈ s₀ :: later, s.sectionPrefix = P) {ourName : XorName}
    (hout : P.matches ourName = false) {p : Nat} (hp : RemoteAt s₀ later P p nk)
    (hn : n ≤ later.length) {ms : Option (List NodeState)}
    (hms : NetworkKnowledge.membersCoverElders (historyUpdate s₀ later n).signedSap ms) :
    ∃ b nk', nk.updateKnowledgeIfValid (historyUpdate s₀ later n) ms ourName = .ok (b, nk') ∧
      RemoteAt s₀ later P (max p (n + 1)) nk' ∧ (p < n + 1 → b = true) := by
  have hver := verifies_historyUpdate hK n hp.known
  have hpre : (historyUpdate s₀ later n).signedSap.sectionPrefix = P := hP _ (sapAt_mem s₀ later n)
  obtain ⟨hat, hb⟩ := updateSectionTree_remote hK hP hp hn
  refine ⟨(nk.updateSectionTree (historyUpdate s₀ later n)).1 ||
      ((nk.updateSectionTree (historyUpdate s₀ later n)).2.mergeUpdatedMembers ms).1,
    ((nk.updateSectionTree (historyUpdate s₀ later n)).2.mergeUpdatedMembers ms).2, ?_,
    ⟨hat.le, ?_, ?_⟩, fun h => by rw [hb h]; rfl⟩
  · simp [NetworkKnowledge.updateKnowledgeIfValid_of_valid hver hms, NetworkKnowledge.applyUpdate,
      hpre, hout]
  · rw [NetworkKnowledge.mergeUpdatedMembers_sectionTree]
    exact hat.entry
  · simpa [NetworkKnowledge.knownKeys] using hat.known

end History

/-! ## Handlers that move the node forward -/

namespace System

variable (env : AeEnv) (ourName : XorName) (At : Nat → NetworkKnowledge → Prop)
  (target : AeMsg → Nat)

/-- `msg`'s update, checked by the node named `ourName` against knowledge at position `m`, is
trusted, moves the knowledge to the later of `m` and the update's target, and reports a change
whenever the target is the later one. -/
def MovesTo (msg : AeMsg) : Prop :=
  ∀ m nk, At m nk → ∃ b nk', nk.updateKnowledgeIfValid msg.sectionTreeUpdate msg.kind.members?
    ourName = .ok (b, nk') ∧ At (max m (target msg)) nk' ∧ (m < target msg → b = true)

/-- A handler against the node at position `m`: holding a snapshot taken at an earlier
position, or past its locked step with its update absorbed (its target at most `m`). -/
def Absorbed (m : Nat) (p : AeMsg × Stage) : Prop :=
  match p.2 with
  | .dispatched => True
  | .started start => start.name = ourName ∧ ∃ m' ≤ m, At m' start.networkKnowledge
  | _ => target p.1 ≤ m

/-- The node is at a position from `m₀` on that is `m₀` or some handler's target, every
handler's update moves the node forward, and each handler is absorbed against the node. -/
structure Converging (m₀ : Nat) (sys : System) : Prop where
  name : sys.node.context.name = ourName
  msgs : ∀ p ∈ sys.handlers, MovesTo ourName At target p.1
  pos : ∃ m, At m sys.node.context.networkKnowledge ∧ m₀ ≤ m ∧
    (m = m₀ ∨ ∃ p ∈ sys.handlers, target p.1 = m) ∧ ∀ p ∈ sys.handlers, Absorbed ourName At target m p

variable {ourName At target}

theorem Absorbed.mono {m m' : Nat} {p : AeMsg × Stage} (h : Absorbed ourName At target m p)
    (hle : m ≤ m') : Absorbed ourName At target m' p := by
  rcases p with ⟨msg, st⟩
  cases st
  case dispatched => trivial
  case started start => exact ⟨h.1, h.2.imp fun _ ⟨hk, hat⟩ => ⟨hk.trans hle, hat⟩⟩
  all_goals exact Nat.le_trans h hle

/-- One step of a handler whose update moves the node forward: the node stays at `m` or moves
to the later of `m` and the target, and the handler stays absorbed against it. A snapshot that
finds nothing to apply is at the target or past it; the locked step applies the update to the
node's own knowledge. -/
theorem handleAntiEntropyStep_moves {node : SharedNode} {msg : AeMsg} {st : Stage} {m : Nat}
    (hname : node.context.name = ourName) (hnode : At m node.context.networkKnowledge)
    (hmsg : MovesTo ourName At target msg) (hst : Absorbed ourName At target m (msg, st)) :
    let r := MyNode.handleAntiEntropyStep env msg node st
    r.1.context.name = ourName ∧ ∃ m', m ≤ m' ∧ (m' = m ∨ m' = target msg) ∧
      At m' r.1.context.networkKnowledge ∧ Absorbed ourName At target m' (msg, r.2) := by
  cases st with
  | dispatched => exact ⟨hname, m, le_rfl, .inl rfl, hnode, hname, m, le_rfl, hnode⟩
  | started start =>
    obtain ⟨hsn, m', hm', hstart⟩ := hst
    obtain ⟨b, x, hx, -, hb⟩ := hmsg m' _ hstart
    cases b
    · -- the snapshot is at the target or past it: the handler skips the lock
      have hle : target msg ≤ m := by
        by_contra h
        exact Bool.false_ne_true (hb (by omega))
      simp only [MyNode.handleAntiEntropyStep, hsn, hx]
      exact ⟨hname, m, le_rfl, .inl rfl, hnode, hle⟩
    · -- the locked step moves the node to the later of its position and the target
      obtain ⟨b', nk, hlock, hnk, -⟩ := hmsg m _ hnode
      simp only [MyNode.handleAntiEntropyStep, hsn, hx, hlock]
      split
      all_goals exact ⟨hname, max m (target msg), le_max_left _ _, max_choice _ _, hnk,
        le_max_right _ _⟩
  | updated start cmds u => exact ⟨hname, m, le_rfl, .inl rfl, hnode, hst⟩
  | read start cmds u latest => cases u <;> exact ⟨hname, m, le_rfl, .inl rfl, hnode, hst⟩
  | targetsSet start cmds latest =>
    dsimp only
    rw [MyNode.handleAntiEntropyStep_targetsSet]
    exact ⟨hname, m, le_rfl, .inl rfl, hnode, hst⟩
  | finished r => exact ⟨hname, m, le_rfl, .inl rfl, hnode, hst⟩

/-- A handler's step keeps the messages of the handlers. -/
theorem step_fst (sys : System) (i : Nat) :
    (sys.step env i).handlers.map Prod.fst = sys.handlers.map Prod.fst := by
  unfold step
  split
  · next msg st hi =>
    refine List.ext_getElem? fun j => ?_
    by_cases hij : i = j
    · subst hij
      obtain ⟨hlt, hget⟩ := List.getElem?_eq_some_iff.1 hi
      simp [List.getElem?_set, hlt, hget]
    · simp [List.getElem?_set, hij]
  · rfl

theorem run_fst (sys : System) (schedule : List Nat) :
    (sys.run env schedule).handlers.map Prod.fst = sys.handlers.map Prod.fst := by
  induction schedule generalizing sys with
  | nil => rfl
  | cons i is ih => rw [run_cons, ih, step_fst]

theorem step_converging {m₀ : Nat} {sys : System} (h : sys.Converging ourName At target m₀)
    (i : Nat) : (sys.step env i).Converging ourName At target m₀ := by
  cases hi : sys.handlers[i]? with
  | none =>
    simp only [step, hi]
    exact h
  | some p =>
    obtain ⟨msg, st⟩ := p
    have hfst := step_fst env sys i
    rw [step_of_getElem? env hi] at hfst ⊢
    have hp := List.getElem?_mem hi
    obtain ⟨m, hat, hm₀, hlev, habs⟩ := h.pos
    obtain ⟨hname, m', hle, hm', hat', habs'⟩ :=
      handleAntiEntropyStep_moves env h.name hat (h.msgs _ hp) (habs _ hp)
    have hnew : (msg, (MyNode.handleAntiEntropyStep env msg sys.node st).2) ∈
        sys.handlers.set i (msg, (MyNode.handleAntiEntropyStep env msg sys.node st).2) :=
      List.getElem?_mem (List.getElem?_set_self (List.getElem?_eq_some_iff.1 hi).1)
    refine ⟨hname, fun p hp' => ?_, m', hat', hm₀.trans hle, ?_, fun p hp' => ?_⟩
    · rcases List.mem_or_eq_of_mem_set hp' with hp' | rfl
      · exact h.msgs p hp'
      · exact h.msgs (msg, st) hp
    · rcases hm' with rfl | rfl
      · refine hlev.imp_right fun ⟨p, hp', hpl⟩ => ?_
        obtain ⟨q, hq, hqp⟩ := List.mem_map.1 (hfst ▸ List.mem_map_of_mem Prod.fst hp')
        exact ⟨q, hq, hqp ▸ hpl⟩
      · exact .inr ⟨_, hnew, rfl⟩
    · rcases List.mem_or_eq_of_mem_set hp' with hp' | rfl
      · exact (habs p hp').mono hle
      · exact habs'

theorem run_converging {m₀ : Nat} {sys : System} (h : sys.Converging ourName At target m₀)
    (schedule : List Nat) : (sys.run env schedule).Converging ourName At target m₀ := by
  induction schedule generalizing sys with
  | nil => exact h
  | cons i is ih => exact ih (step_converging env h i)

/-- Handlers that have not started, each with an update that moves the node forward, run to
their ends in any interleaving: the node ends at the highest of its first position and the
handlers' targets. -/
theorem converges_over_run (sys : System) (hf : sys.Fresh) {m₀ : Nat}
    (h₀ : At m₀ sys.node.context.networkKnowledge)
    (hmsgs : ∀ p ∈ sys.handlers, MovesTo sys.node.context.name At target p.1)
    (schedule : List Nat) (hdone : (sys.run env schedule).Finished) :
    ∃ m, ((m = m₀ ∨ ∃ p ∈ sys.handlers, target p.1 = m) ∧ m₀ ≤ m ∧
        ∀ p ∈ sys.handlers, target p.1 ≤ m) ∧
      At m (sys.run env schedule).node.context.networkKnowledge := by
  have hinit : sys.Converging sys.node.context.name At target m₀ :=
    ⟨rfl, hmsgs, m₀, h₀, le_rfl, .inl rfl, fun p hp => by simp [Absorbed, hf p hp]⟩
  obtain ⟨-, -, m, hat, hm₀, hlev, habs⟩ := run_converging env hinit schedule
  have hfst := run_fst env sys schedule
  have hof : ∀ p ∈ (sys.run env schedule).handlers, ∃ q ∈ sys.handlers, q.1 = p.1 := fun p hp =>
    List.mem_map.1 (by rw [← hfst]; exact List.mem_map_of_mem Prod.fst hp)
  have hto : ∀ q ∈ sys.handlers, ∃ p ∈ (sys.run env schedule).handlers, p.1 = q.1 := fun q hq =>
    List.mem_map.1 (by rw [hfst]; exact List.mem_map_of_mem Prod.fst hq)
  refine ⟨m, ⟨?_, hm₀, fun q hq => ?_⟩, hat⟩
  · rcases hlev with rfl | ⟨p, hp, hpl⟩
    · exact .inl rfl
    · obtain ⟨q, hq, hqp⟩ := hof p hp
      exact .inr ⟨q, hq, hqp ▸ hpl⟩
  · -- every handler has finished, so its update is absorbed
    obtain ⟨p, hp, hpq⟩ := hto q hq
    obtain ⟨r, hr⟩ := hdone p hp
    have hp' := habs p hp
    simp only [Absorbed, hr] at hp'
    exact hpq ▸ hp'

/-! ## Updates of our section -/

/-- How far along its history an update's proof chain reaches. -/
def level (msg : AeMsg) : Nat := msg.sectionTreeUpdate.proofChain.length - 1

theorem level_eq {s₀ : SectionAuthorityProvider} {later : List SectionAuthorityProvider}
    {msg : AeMsg} {n : Nat} (hmsg : msg.sectionTreeUpdate = historyUpdate s₀ later n)
    (hn : n ≤ later.length) : level msg = n := by
  rw [level, hmsg, level_historyUpdate s₀ later hn]

/-- Over every interleaving of handlers of AE updates along one history of our section, each
with a member set that passes rule 4, once every handler has finished, the node holds the SAP
of the highest update (a level one handler carried, and at least every handler's), and its
chain is its first chain extended by the keys up to it: no update is lost to a race, and none
is applied twice. -/
theorem updates_converge_over_run (sys : System) (hf : sys.Fresh)
    (first : SectionAuthorityProvider) (next : List SectionAuthorityProvider)
    (hK : ((first :: next).map (·.sectionKey)).Nodup)
    (hpre : ∀ s ∈ first :: next, s.sectionPrefix.matches sys.node.context.name)
    (hsap : sys.node.context.networkKnowledge.signedSap = first)
    (hmsgs : ∀ p ∈ sys.handlers, ∃ n ≤ next.length, p.1.sectionTreeUpdate = historyUpdate first next n)
    (hcover : ∀ p ∈ sys.handlers,
      NetworkKnowledge.membersCoverElders p.1.sectionTreeUpdate.signedSap p.1.kind.members?)
    (schedule : List Nat) (hdone : (sys.run env schedule).Finished) :
    ∃ m, ((m = 0 ∨ ∃ p ∈ sys.handlers, level p.1 = m) ∧ ∀ p ∈ sys.handlers, level p.1 ≤ m) ∧
      (sys.run env schedule).node.context.networkKnowledge.signedSap = sapAt first next m ∧
      (sys.run env schedule).node.context.networkKnowledge.sectionChain =
        sys.node.context.networkKnowledge.sectionChain ++ (next.take m).map (·.sectionKey) := by
  have hbase : first.sectionKey ∈ sys.node.context.networkKnowledge.sectionChain := by
    rw [← hsap]
    exact List.mem_of_getLast?_eq_some sys.node.context.networkKnowledge.chain_last
  have hmoves : ∀ p ∈ sys.handlers, MovesTo sys.node.context.name
      (AtHistory first next sys.node.context.networkKnowledge.sectionChain) level p.1 := by
    intro p hp m nk hat
    obtain ⟨n, hn, hmsg⟩ := hmsgs p hp
    rw [hmsg, level_eq hmsg hn]
    exact updateKnowledgeIfValid_history hK hpre hbase hat hn (hmsg ▸ hcover p hp)
  obtain ⟨m, ⟨hlev, -, hall⟩, hat⟩ := converges_over_run env sys hf
    (⟨Nat.zero_le _, hsap, by simp⟩ : AtHistory first next _ 0 _) hmoves schedule hdone
  exact ⟨m, ⟨hlev, hall⟩, hat.sap, hat.chain⟩

/-- The SAPs after the first in the history of node `0`'s section. -/
def laterSaps : List SectionAuthorityProvider := [rootSap 1, rootSap 2]

/-- The Updates to key `1` and to key `2` racing on node `0` are of one history, key `0` then
`1` then `2`; each handler given its five steps, the node ends at the higher one. -/
theorem racing_updates_converge :
    racingSystem.Fresh ∧ ((rootSap 0 :: laterSaps).map (·.sectionKey)).Nodup ∧
      (∀ s ∈ rootSap 0 :: laterSaps, s.sectionPrefix.matches racingSystem.node.context.name) ∧
      racingSystem.node.context.networkKnowledge.signedSap = rootSap 0 ∧
      (∀ p ∈ racingSystem.handlers, ∃ n ≤ laterSaps.length,
        p.1.sectionTreeUpdate = historyUpdate (rootSap 0) laterSaps n) ∧
      (∀ p ∈ racingSystem.handlers,
        NetworkKnowledge.membersCoverElders p.1.sectionTreeUpdate.signedSap p.1.kind.members?) ∧
      (racingSystem.run quietEnv [0, 1, 0, 1, 0, 1, 0, 1, 0, 1]).Finished ∧
      ∃ m, ((m = 0 ∨ ∃ p ∈ racingSystem.handlers, level p.1 = m) ∧
          ∀ p ∈ racingSystem.handlers, level p.1 ≤ m) ∧
        (racingSystem.run quietEnv [0, 1, 0, 1, 0, 1, 0, 1, 0, 1]).node.context.networkKnowledge.signedSap =
          sapAt (rootSap 0) laterSaps m ∧
        (racingSystem.run quietEnv [0, 1, 0, 1, 0, 1, 0, 1, 0, 1]).node.context.networkKnowledge.sectionChain =
          racingSystem.node.context.networkKnowledge.sectionChain ++
            (laterSaps.take m).map (·.sectionKey) :=
  have hf : racingSystem.Fresh := by simp [Fresh, racingSystem, memberSystem]
  have hK : ((rootSap 0 :: laterSaps).map (·.sectionKey)).Nodup := by decide
  have hpre : ∀ s ∈ rootSap 0 :: laterSaps,
      s.sectionPrefix.matches racingSystem.node.context.name := by
    simp [laterSaps, rootSap, Prefix.matches]
  have hmsgs : ∀ p ∈ racingSystem.handlers, ∃ n ≤ laterSaps.length,
      p.1.sectionTreeUpdate = historyUpdate (rootSap 0) laterSaps n := by
    intro p hp
    simp only [racingSystem, memberSystem, List.map_cons, List.map_nil, List.mem_cons,
      List.mem_nil_iff, or_false] at hp
    rcases hp with rfl | rfl
    · exact ⟨1, by decide, rfl⟩
    · exact ⟨2, by decide, rfl⟩
  have hcover : ∀ p ∈ racingSystem.handlers,
      NetworkKnowledge.membersCoverElders p.1.sectionTreeUpdate.signedSap p.1.kind.members? := by
    decide
  have hdone : (racingSystem.run quietEnv [0, 1, 0, 1, 0, 1, 0, 1, 0, 1]).Finished :=
    finished_of_scheduled quietEnv _ _ (by decide)
  ⟨hf, hK, hpre, rfl, hmsgs, hcover, hdone,
    updates_converge_over_run quietEnv _ hf _ _ hK hpre rfl hmsgs hcover _ hdone⟩

/-! ## Updates of another section -/

/-- Over every interleaving of handlers of AE messages carrying one history of another section,
each with a member set that passes rule 4, once every handler has finished, the node's tree
holds that section at the highest update it was sent, or where it already was if that is
higher: no update is lost to a race. -/
theorem remote_updates_converge_over_run (sys : System) (hf : sys.Fresh)
    (first : SectionAuthorityProvider) (next : List SectionAuthorityProvider) (P : Prefix)
    (hK : ((first :: next).map (·.sectionKey)).Nodup)
    (hP : ∀ s ∈ first :: next, s.sectionPrefix = P)
    (hout : P.matches sys.node.context.name = false) (p₀ : Nat)
    (h₀ : RemoteAt first next P p₀ sys.node.context.networkKnowledge)
    (hmsgs : ∀ q ∈ sys.handlers, ∃ n ≤ next.length, q.1.sectionTreeUpdate = historyUpdate first next n)
    (hcover : ∀ q ∈ sys.handlers,
      NetworkKnowledge.membersCoverElders q.1.sectionTreeUpdate.signedSap q.1.kind.members?)
    (schedule : List Nat) (hdone : (sys.run env schedule).Finished) :
    ∃ p, ((p = p₀ ∨ ∃ q ∈ sys.handlers, level q.1 + 1 = p) ∧ p₀ ≤ p ∧
        ∀ q ∈ sys.handlers, level q.1 + 1 ≤ p) ∧
      (sys.run env schedule).node.context.networkKnowledge.sectionTree.find?
        (·.signedSap.sectionPrefix = P) = entryAt first next p := by
  have hmoves : ∀ q ∈ sys.handlers, MovesTo sys.node.context.name (RemoteAt first next P)
      (level · + 1) q.1 := by
    intro q hq p nk hat
    obtain ⟨n, hn, hmsg⟩ := hmsgs q hq
    dsimp only
    rw [hmsg, level_eq hmsg hn]
    exact updateKnowledgeIfValid_remote hK hP hout hat hn (hmsg ▸ hcover q hq)
  obtain ⟨p, hp, hat⟩ := converges_over_run env sys hf h₀ hmoves schedule hdone
  exact ⟨p, hp, hat.entry⟩

/-- A SAP of the section of prefix \x7b1\x7d. -/
def remoteSap (k : BlsPublicKey) : SectionAuthorityProvider := ⟨⟨[true]⟩, k, [], List.nodup_nil⟩

/-- The SAPs after the first in the history of section \x7b1\x7d: keys `3` and `4`. -/
def remoteLater : List SectionAuthorityProvider := [remoteSap 3, remoteSap 4]

/-- Node `0` of `MyNode.lonelySap`, whose tree holds section \x7b1\x7d at key `2`, with the handlers
of Retries carrying that section's SAPs of key `3` and of key `4`. -/
def remoteSystem : System :=
  let nk : NetworkKnowledge := ⟨MyNode.lonelySap, [0, 1], [⟨MyNode.lonelySap, [0, 1]⟩, ⟨remoteSap 2, [2]⟩], [], rfl⟩
  ⟨⟨⟨0, nk⟩, nk.sectionTree, []⟩,
    [(⟨historyUpdate (remoteSap 2) remoteLater 1, .retry [], ⟨1, 0⟩⟩, .dispatched),
      (⟨historyUpdate (remoteSap 2) remoteLater 2, .retry [], ⟨2, 0⟩⟩, .dispatched)]⟩

/-- The Retries racing on node `0` carry section \x7b1\x7d's history from key `2`; each handler
given its five steps, the node's tree ends at the later SAP. -/
theorem racing_retries_converge :
    remoteSystem.Fresh ∧ ((remoteSap 2 :: remoteLater).map (·.sectionKey)).Nodup ∧
      (∀ s ∈ remoteSap 2 :: remoteLater, s.sectionPrefix = ⟨[true]⟩) ∧
      Prefix.matches ⟨[true]⟩ remoteSystem.node.context.name = false ∧
      RemoteAt (remoteSap 2) remoteLater ⟨[true]⟩ 1 remoteSystem.node.context.networkKnowledge ∧
      (∀ q ∈ remoteSystem.handlers, ∃ n ≤ remoteLater.length,
        q.1.sectionTreeUpdate = historyUpdate (remoteSap 2) remoteLater n) ∧
      (∀ q ∈ remoteSystem.handlers,
        NetworkKnowledge.membersCoverElders q.1.sectionTreeUpdate.signedSap q.1.kind.members?) ∧
      (remoteSystem.run quietEnv [0, 1, 0, 1, 0, 1, 0, 1, 0, 1]).Finished ∧
      ∃ p, ((p = 1 ∨ ∃ q ∈ remoteSystem.handlers, level q.1 + 1 = p) ∧ 1 ≤ p ∧
          ∀ q ∈ remoteSystem.handlers, level q.1 + 1 ≤ p) ∧
        (remoteSystem.run quietEnv [0, 1, 0, 1, 0, 1, 0, 1, 0, 1]).node.context.networkKnowledge.sectionTree.find?
          (·.signedSap.sectionPrefix = ⟨[true]⟩) = entryAt (remoteSap 2) remoteLater p :=
  have hf : remoteSystem.Fresh := by simp [Fresh, remoteSystem]
  have hK : ((remoteSap 2 :: remoteLater).map (·.sectionKey)).Nodup := by decide
  have hP : ∀ s ∈ remoteSap 2 :: remoteLater, s.sectionPrefix = ⟨[true]⟩ := by
    simp [remoteLater, remoteSap]
  have hout : Prefix.matches ⟨[true]⟩ remoteSystem.node.context.name = false := by decide
  have h₀ : RemoteAt (remoteSap 2) remoteLater ⟨[true]⟩ 1 remoteSystem.node.context.networkKnowledge :=
    ⟨by decide, by decide, by decide⟩
  have hmsgs : ∀ q ∈ remoteSystem.handlers, ∃ n ≤ remoteLater.length,
      q.1.sectionTreeUpdate = historyUpdate (remoteSap 2) remoteLater n := by
    intro q hq
    simp only [remoteSystem, List.mem_cons, List.mem_nil_iff, or_false] at hq
    rcases hq with rfl | rfl
    · exact ⟨1, by decide, rfl⟩
    · exact ⟨2, by decide, rfl⟩
  have hcover : ∀ q ∈ remoteSystem.handlers,
      NetworkKnowledge.membersCoverElders q.1.sectionTreeUpdate.signedSap q.1.kind.members? := by
    decide
  have hdone : (remoteSystem.run quietEnv [0, 1, 0, 1, 0, 1, 0, 1, 0, 1]).Finished :=
    finished_of_scheduled quietEnv _ _ (by decide)
  ⟨hf, hK, hP, hout, h₀, hmsgs, hcover, hdone,
    remote_updates_converge_over_run quietEnv _ hf _ _ _ hK hP hout _ h₀ hmsgs hcover _ hdone⟩

end System

end SafeNetwork
