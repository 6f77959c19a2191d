import Mathlib.Order.Nat
import SafeNetwork.Convergence

/-!
# Updates of one history commute

Validated section tree updates, applied in any order, should leave the same section tree and
chain (spec §8). Take the handlers of AE Retries and Redirects, which carry no member states,
whose updates lie along one history of our section whose prefixes only grow (a split makes the
prefix longer). Whatever the interleaving of the handlers, once every one has finished, the
node's knowledge is its first knowledge with the highest of the updates applied and nothing else
(`run_knowledge_is_highest_update`). That knowledge names no schedule, so every interleaving
leaves the same SAP, chain, tree and peers. It is also the knowledge the atomic handler leaves
when applied to the messages one after another, in any order (`run_knowledge_is_serial`): the
concurrent handlers refine the atomic ones, and each update appears as one atomic transition
(spec §5).

The proof is the argument of `converges_over_run` over a finer position. Knowledge at position
`n` is the first knowledge with the update to `sapAt n` applied (`Applied`). Applying a later
update to it is applying that update alone (`updateOurSection_twice`): the chain grows by the
keys between the two, the tree's entry for our section is replaced once more, and the peers are
filtered by a prefix that only grows.

An AE Update also merges the member states it carries, in the order the handlers take the
write lock, so Updates are left out.
-/

namespace SafeNetwork

namespace NetworkKnowledge

/-- Knowledge is its data: the SAP, the chain, the tree and the peers. -/
theorem ext_data {a b : NetworkKnowledge} (hsap : a.signedSap = b.signedSap)
    (hchain : a.sectionChain = b.sectionChain) (htree : a.sectionTree = b.sectionTree)
    (hpeers : a.sectionPeers = b.sectionPeers) : a = b := by
  cases a
  cases b
  cases hsap
  cases hchain
  cases htree
  cases hpeers
  rfl

variable {nk : NetworkKnowledge}

/-- Our section's update, when its chain proves a key newer than ours: its SAP, our chain
extended by its keys, its entry in the tree, and the peers its prefix matches. -/
theorem updateOurSection_of_newer {u : SectionTreeUpdate}
    (h : provesNewer nk.sectionKey u.proofChain ∧ u.proofChain.getLast? = some u.signedSap.sectionKey) :
    (nk.updateOurSection u).1 = true ∧ (nk.updateOurSection u).2.signedSap = u.signedSap ∧
      (nk.updateOurSection u).2.sectionChain = nk.sectionChain ++ keysAfter nk.sectionKey u.proofChain ∧
      (nk.updateOurSection u).2.sectionTree = insertEntry nk.sectionTree u ∧
      (nk.updateOurSection u).2.sectionPeers =
        nk.sectionPeers.filter (u.signedSap.sectionPrefix.matches ·.name) := by
  unfold updateOurSection
  rw [dif_pos h]
  exact ⟨rfl, rfl, rfl, rfl, rfl⟩

/-- An entry put in after another whose prefix is a prefix of its own replaces it: the tree is
as if it alone were put in. -/
theorem insertEntry_insertEntry {t : List SectionTreeUpdate} {u v : SectionTreeUpdate}
    (h : u.signedSap.sectionPrefix.bits <+: v.signedSap.sectionPrefix.bits) :
    insertEntry (insertEntry t u) v = insertEntry t v := by
  have hu : u.signedSap.sectionPrefix.bits.isPrefixOf v.signedSap.sectionPrefix.bits = true :=
    List.isPrefixOf_iff_prefix.2 h
  simp only [insertEntry, List.filter_cons, hu, Bool.not_true, Bool.false_eq_true, if_false,
    List.filter_filter, List.cons.injEq, true_and]
  refine List.filter_congr fun e _ => ?_
  by_cases hv : e.signedSap.sectionPrefix.bits <+: v.signedSap.sectionPrefix.bits
  · simp [List.isPrefixOf_iff_prefix.2 hv]
  · have hnu : ¬ e.signedSap.sectionPrefix.bits <+: u.signedSap.sectionPrefix.bits :=
      fun he => hv (he.trans h)
    simp [Bool.eq_false_iff.2 (mt List.isPrefixOf_iff_prefix.1 hv),
      Bool.eq_false_iff.2 (mt List.isPrefixOf_iff_prefix.1 hnu)]

/-- Filtering the peers by a prefix and then by a longer one is filtering by the longer one. -/
theorem filter_matches_filter {ps : List NodeState} {P Q : Prefix} (h : P.bits <+: Q.bits) :
    (ps.filter (P.matches ·.name)).filter (Q.matches ·.name) = ps.filter (Q.matches ·.name) := by
  rw [List.filter_filter]
  refine List.filter_congr fun s _ => ?_
  by_cases hq : Q.matches s.name
  · have hp : P.matches s.name :=
      (Prefix.matches_iff P s.name).2 (h.trans ((Prefix.matches_iff Q s.name).1 hq))
    simp [hq, hp]
  · simp [hq]

end NetworkKnowledge

/-! ## Knowledge along a history -/

section History

variable (s₀ : SectionAuthorityProvider) (later : List SectionAuthorityProvider)

/-- Knowledge `nk` is `nk₀` with our section's update to `sapAt n` applied. -/
structure Applied (nk₀ : NetworkKnowledge) (n : Nat) (nk : NetworkKnowledge) : Prop where
  le : n ≤ later.length
  eq : nk = (nk₀.updateOurSection (historyUpdate s₀ later n)).2

variable {s₀ later} {base : List BlsPublicKey} {nk₀ nk : NetworkKnowledge} {m n : Nat}

/-- Along a history whose prefixes only grow, a SAP's prefix is a prefix of every later one's. -/
theorem sapAt_prefix_mono
    (hsplit : (s₀ :: later).Pairwise fun a b => a.sectionPrefix.bits <+: b.sectionPrefix.bits)
    (hmn : m ≤ n) : (sapAt s₀ later m).sectionPrefix.bits <+: (sapAt s₀ later n).sectionPrefix.bits := by
  induction later generalizing s₀ m n with
  | nil => simp [sapAt]
  | cons a l ih =>
    cases m with
    | zero =>
      cases n with
      | zero => exact List.prefix_refl _
      | succ n =>
        rw [sapAt_zero, sapAt_cons_succ]
        exact List.rel_of_pairwise_cons hsplit (sapAt_mem a l n)
    | succ m =>
      obtain ⟨n, rfl⟩ : ∃ n', n = n' + 1 := ⟨n - 1, by omega⟩
      rw [sapAt_cons_succ, sapAt_cons_succ]
      exact ih (List.pairwise_cons.1 hsplit).2 (Nat.le_of_succ_le_succ hmn)

/-- Knowledge at `sapAt m` takes no update of the history up to `sapAt m`. -/
theorem updateOurSection_stale (hK : ((s₀ :: later).map (·.sectionKey)).Nodup)
    (hat : AtHistory s₀ later base m nk) (hn : n ≤ later.length) (hnm : ¬ m < n) :
    nk.updateOurSection (historyUpdate s₀ later n) = (false, nk) := by
  have hkey : nk.sectionKey = (sapAt s₀ later m).sectionKey := congrArg (·.sectionKey) hat.sap
  unfold NetworkKnowledge.updateOurSection
  rw [dif_neg]
  rintro ⟨h, -⟩
  simp [historyUpdate, hkey, provesNewer_keysUpTo hK hat.le hn, hnm] at h

/-- The chain of the update to a `sapAt n` past knowledge at `sapAt m` proves a key newer than
the knowledge's. -/
theorem newer_historyUpdate (hK : ((s₀ :: later).map (·.sectionKey)).Nodup)
    (hat : AtHistory s₀ later base m nk) (hn : n ≤ later.length) (hmn : m < n) :
    NetworkKnowledge.provesNewer nk.sectionKey (historyUpdate s₀ later n).proofChain ∧
      (historyUpdate s₀ later n).proofChain.getLast? =
        some (historyUpdate s₀ later n).signedSap.sectionKey := by
  have hkey : nk.sectionKey = (sapAt s₀ later m).sectionKey := congrArg (·.sectionKey) hat.sap
  exact ⟨by simp [historyUpdate, hkey, provesNewer_keysUpTo hK hat.le hn, hmn], keysUpTo_getLast? s₀ later n⟩

/-- The update to `sapAt n`, applied after the update to an earlier `sapAt m`, leaves what it
leaves alone. -/
theorem updateOurSection_twice (hK : ((s₀ :: later).map (·.sectionKey)).Nodup)
    (hsplit : (s₀ :: later).Pairwise fun a b => a.sectionPrefix.bits <+: b.sectionPrefix.bits)
    (hsap : nk₀.signedSap = s₀) (hm : m ≤ later.length) (hn : n ≤ later.length) (hmn : m < n) :
    ((nk₀.updateOurSection (historyUpdate s₀ later m)).2.updateOurSection (historyUpdate s₀ later n)).2 =
      (nk₀.updateOurSection (historyUpdate s₀ later n)).2 := by
  have h₀ : AtHistory s₀ later nk₀.sectionChain 0 nk₀ := ⟨Nat.zero_le _, hsap, by simp⟩
  rcases Nat.eq_zero_or_pos m with rfl | hpos
  · rw [updateOurSection_stale hK h₀ hm (Nat.lt_irrefl 0)]
  have hA₁ := (updateOurSection_history hK h₀ hm).1
  rw [max_eq_right (Nat.zero_le m)] at hA₁
  have hA₂ := (updateOurSection_history hK hA₁ hn).1
  have hA₃ := (updateOurSection_history hK h₀ hn).1
  rw [max_eq_right hmn.le] at hA₂
  rw [max_eq_right (Nat.zero_le n)] at hA₃
  obtain ⟨-, -, -, htree₁, hpeers₁⟩ := NetworkKnowledge.updateOurSection_of_newer
    (newer_historyUpdate hK h₀ hm hpos)
  obtain ⟨-, -, -, htree₂, hpeers₂⟩ := NetworkKnowledge.updateOurSection_of_newer
    (newer_historyUpdate hK hA₁ hn hmn)
  obtain ⟨-, -, -, htree₃, hpeers₃⟩ := NetworkKnowledge.updateOurSection_of_newer
    (newer_historyUpdate hK h₀ hn (hpos.trans hmn))
  have hgrow := sapAt_prefix_mono hsplit hmn.le
  refine NetworkKnowledge.ext_data (hA₂.sap.trans hA₃.sap.symm) (hA₂.chain.trans hA₃.chain.symm) ?_ ?_
  · rw [htree₂, htree₁, htree₃]
    exact NetworkKnowledge.insertEntry_insertEntry hgrow
  · rw [hpeers₂, hpeers₁, hpeers₃]
    exact NetworkKnowledge.filter_matches_filter hgrow

/-- An update of the history without member states, checked by a node of our section against
knowledge that is `nk₀` with the update to `sapAt m` applied, is trusted. It leaves `nk₀` with
the later of the two updates applied, and reports a change whenever its own is the later one. -/
theorem updateKnowledgeIfValid_applied (hK : ((s₀ :: later).map (·.sectionKey)).Nodup)
    {ourName : XorName} (hpre : ∀ s ∈ s₀ :: later, s.sectionPrefix.matches ourName)
    (hsplit : (s₀ :: later).Pairwise fun a b => a.sectionPrefix.bits <+: b.sectionPrefix.bits)
    (hsap : nk₀.signedSap = s₀) (hm : Applied s₀ later nk₀ m nk) (hn : n ≤ later.length) :
    ∃ b nk', nk.updateKnowledgeIfValid (historyUpdate s₀ later n) none ourName = .ok (b, nk') ∧
      Applied s₀ later nk₀ (max m n) nk' ∧ (m < n → b = true) := by
  have h₀ : AtHistory s₀ later nk₀.sectionChain 0 nk₀ := ⟨Nat.zero_le _, hsap, by simp⟩
  have hat : AtHistory s₀ later nk₀.sectionChain m nk := by
    have h := (updateOurSection_history hK h₀ hm.le).1
    rwa [max_eq_right (Nat.zero_le m), ← hm.eq] at h
  have hbase : s₀.sectionKey ∈ nk₀.sectionChain := by
    rw [← hsap]
    exact List.mem_of_getLast?_eq_some nk₀.chain_last
  have hver := verifies_historyUpdate hK n
    (List.mem_append_left _ (hat.chain ▸ List.mem_append_left _ hbase))
  have hsec : (historyUpdate s₀ later n).signedSap.sectionPrefix.matches ourName :=
    hpre _ (sapAt_mem s₀ later n)
  rw [NetworkKnowledge.updateKnowledgeIfValid_none hver, NetworkKnowledge.applyUpdate, if_pos hsec]
  by_cases hmn : m < n
  · refine ⟨(nk.updateOurSection (historyUpdate s₀ later n)).1,
      (nk.updateOurSection (historyUpdate s₀ later n)).2, rfl, ⟨by omega, ?_⟩,
      fun _ => (updateOurSection_history hK hat hn).2 hmn⟩
    rw [max_eq_right hmn.le, hm.eq, updateOurSection_twice hK hsplit hsap hm.le hn hmn]
  · rw [updateOurSection_stale hK hat hn hmn, max_eq_left (not_lt.1 hmn)]
    exact ⟨_, _, rfl, hm, fun h => absurd h hmn⟩

end History

/-! ## Every interleaving leaves the same knowledge -/

namespace System

variable (env : AeEnv)

theorem foldr_max_eq {l : List Nat} {m : Nat} (h : m = 0 ∨ m ∈ l) (hle : ∀ x ∈ l, x ≤ m) :
    l.foldr max 0 = m :=
  Nat.le_antisymm (List.max_le_of_forall_le l m hle)
    (h.elim (fun h0 => by rw [h0]; exact Nat.zero_le _) fun hm => List.le_max_of_le hm le_rfl)

/-- Over every interleaving that finishes the handlers, the node ends at the highest of the
updates: its first knowledge with that update applied. -/
theorem run_applied_highest (sys : System) (hf : sys.Fresh) {first : SectionAuthorityProvider}
    {next : List SectionAuthorityProvider} (hK : ((first :: next).map (·.sectionKey)).Nodup)
    (hpre : ∀ s ∈ first :: next, s.sectionPrefix.matches sys.node.context.name)
    (hsplit : (first :: next).Pairwise fun a b => a.sectionPrefix.bits <+: b.sectionPrefix.bits)
    (hsap : sys.node.context.networkKnowledge.signedSap = first)
    (hmsgs : ∀ p ∈ sys.handlers, p.1.kind.members? = none ∧
      ∃ n ≤ next.length, p.1.sectionTreeUpdate = historyUpdate first next n)
    (schedule : List Nat) (hdone : (sys.run env schedule).Finished) :
    Applied first next sys.node.context.networkKnowledge
      ((sys.handlers.map fun p => level p.1).foldr max 0) (sys.run env schedule).node.context.networkKnowledge := by
  have hmoves : ∀ p ∈ sys.handlers, MovesTo sys.node.context.name
      (Applied first next sys.node.context.networkKnowledge) level p.1 := by
    intro p hp m nk hat
    obtain ⟨hnone, n, hn, hmsg⟩ := hmsgs p hp
    rw [hmsg, hnone, level_eq hmsg hn]
    exact updateKnowledgeIfValid_applied hK hpre hsplit hsap hat hn
  have h₀ : Applied first next sys.node.context.networkKnowledge 0 sys.node.context.networkKnowledge :=
    ⟨Nat.zero_le _, (congrArg Prod.snd (updateOurSection_stale hK
      (⟨Nat.zero_le _, hsap, by simp⟩ : AtHistory first next sys.node.context.networkKnowledge.sectionChain 0 _)
      (Nat.zero_le _) (Nat.lt_irrefl 0))).symm⟩
  obtain ⟨m, ⟨hlev, -, hall⟩, hat⟩ := converges_over_run env sys hf h₀ hmoves schedule hdone
  have hmax : (sys.handlers.map fun p => level p.1).foldr max 0 = m :=
    foldr_max_eq (hlev.imp_right fun ⟨p, hp, hpm⟩ => List.mem_map.2 ⟨p, hp, hpm⟩)
      (fun x hx => by
        obtain ⟨p, hp, rfl⟩ := List.mem_map.1 hx
        exact hall p hp)
  rw [hmax]
  exact hat

/-- Over every interleaving of handlers of AE Retries and Redirects carrying updates along one
history of our section, whose prefixes only grow, once every handler has finished the node's
knowledge is its first knowledge with the highest of the updates applied, and nothing else. The
right-hand side names no schedule: every interleaving leaves the same SAP, chain, tree and
peers. -/
theorem run_knowledge_is_highest_update (sys : System) (hf : sys.Fresh)
    (first : SectionAuthorityProvider) (next : List SectionAuthorityProvider)
    (hK : ((first :: next).map (·.sectionKey)).Nodup)
    (hpre : ∀ s ∈ first :: next, s.sectionPrefix.matches sys.node.context.name)
    (hsplit : (first :: next).Pairwise fun a b => a.sectionPrefix.bits <+: b.sectionPrefix.bits)
    (hsap : sys.node.context.networkKnowledge.signedSap = first)
    (hmsgs : ∀ p ∈ sys.handlers, p.1.kind.members? = none ∧
      ∃ n ≤ next.length, p.1.sectionTreeUpdate = historyUpdate first next n)
    (schedule : List Nat) (hdone : (sys.run env schedule).Finished) :
    (sys.run env schedule).node.context.networkKnowledge =
      (sys.node.context.networkKnowledge.updateOurSection
        (historyUpdate first next ((sys.handlers.map fun p => level p.1).foldr max 0))).2 :=
  (run_applied_highest env sys hf hK hpre hsplit hsap hmsgs schedule hdone).eq

/-! ## Concurrent handling refines atomic handling -/

/-- The atomic handler, applied to messages in turn, leaves every handler finished. -/
theorem serialAtomic_finished (node : SharedNode) (msgs : List AeMsg) :
    ∀ p ∈ (serialAtomic env node msgs).2, ∃ r, p.2 = .finished r := by
  induction msgs generalizing node with
  | nil => simp [serialAtomic]
  | cons m ms ih =>
    intro p hp
    simp only [serialAtomic, List.mem_cons] at hp
    rcases hp with rfl | hp
    · exact MyNode.handleAntiEntropyMsg_finished env m node
    · exact ih _ p hp

/-- Concurrent handling refines atomic handling. Over every interleaving of handlers of AE
Retries and Redirects carrying updates along one history of our section, whose prefixes only
grow, once every handler has finished, the node's knowledge is the knowledge the atomic handler
leaves when applied to the messages one after another, in any order: each knowledge update
appears as one atomic transition, and the order of the transitions does not matter. -/
theorem run_knowledge_is_serial (sys : System) (hf : sys.Fresh)
    (first : SectionAuthorityProvider) (next : List SectionAuthorityProvider)
    (hK : ((first :: next).map (·.sectionKey)).Nodup)
    (hpre : ∀ s ∈ first :: next, s.sectionPrefix.matches sys.node.context.name)
    (hsplit : (first :: next).Pairwise fun a b => a.sectionPrefix.bits <+: b.sectionPrefix.bits)
    (hsap : sys.node.context.networkKnowledge.signedSap = first)
    (hmsgs : ∀ p ∈ sys.handlers, p.1.kind.members? = none ∧
      ∃ n ≤ next.length, p.1.sectionTreeUpdate = historyUpdate first next n)
    (schedule : List Nat) (hdone : (sys.run env schedule).Finished)
    (order : List AeMsg) (hperm : order.Perm (sys.handlers.map Prod.fst)) :
    (sys.run env schedule).node.context.networkKnowledge =
      (serialAtomic env sys.node order).1.context.networkKnowledge := by
  -- the serial run of the same messages in the given order, as a run of the system
  have hserial := run_serial env [] sys.node order
  rw [List.nil_append, List.length_nil] at hserial
  have hf' : (System.mk sys.node (order.map (·, .dispatched))).Fresh := fun p hp => by
    obtain ⟨msg, -, rfl⟩ := List.mem_map.1 hp
    rfl
  have hmsgs' : ∀ p ∈ (System.mk sys.node (order.map (·, .dispatched))).handlers,
      p.1.kind.members? = none ∧ ∃ n ≤ next.length, p.1.sectionTreeUpdate = historyUpdate first next n := by
    intro p hp
    obtain ⟨msg, hmsg, rfl⟩ := List.mem_map.1 hp
    obtain ⟨q, hq, rfl⟩ := List.mem_map.1 (hperm.subset hmsg)
    exact hmsgs q hq
  have hdone' : ((System.mk sys.node (order.map (·, .dispatched))).run env
      ((List.range' 0 order.length).flatMap fun i => List.replicate 6 i)).Finished := by
    rw [hserial]
    exact serialAtomic_finished env sys.node order
  -- both runs end at the highest update, the same for the messages in either order
  have hmax : ((order.map (·, Stage.dispatched)).map fun p => level p.1).foldr max 0 =
      (sys.handlers.map fun p => level p.1).foldr max 0 := by
    have hfst : sys.handlers.map (fun p => level p.1) = (sys.handlers.map Prod.fst).map level := by
      rw [List.map_map]
      rfl
    rw [List.map_map, hfst]
    exact (hperm.map level).foldr_eq' (fun x _ y _ z => max_left_comm y x z) 0
  calc (sys.run env schedule).node.context.networkKnowledge
      = (sys.node.context.networkKnowledge.updateOurSection
          (historyUpdate first next ((sys.handlers.map fun p => level p.1).foldr max 0))).2 :=
        (run_applied_highest env sys hf hK hpre hsplit hsap hmsgs schedule hdone).eq
    _ = ((System.mk sys.node (order.map (·, .dispatched))).run env
          ((List.range' 0 order.length).flatMap fun i => List.replicate 6 i)).node.context.networkKnowledge := by
        rw [← hmax]
        exact (run_applied_highest env _ hf' hK hpre hsplit hsap hmsgs' _ hdone').eq.symm
    _ = (serialAtomic env sys.node order).1.context.networkKnowledge := by rw [hserial]

/-- A Retry carrying the `n`-th SAP after the first of node `0`'s section history. -/
def historyRetry (n : Nat) : AeMsg := ⟨historyUpdate (rootSap 0) laterSaps n, .retry [], ⟨1, 0⟩⟩

/-- Node `0` at key `0` with the handlers of the Retries to key `1` and to key `2`. -/
def racingRetries : System := memberSystem [historyRetry 1, historyRetry 2]

/-- The racing Retries carry one history of the whole network, key `0` then `1` then `2`, and
each handler given its five steps finishes. -/
theorem racingRetries_history :
    racingRetries.Fresh ∧ ((rootSap 0 :: laterSaps).map (·.sectionKey)).Nodup ∧
      (∀ s ∈ rootSap 0 :: laterSaps, s.sectionPrefix.matches racingRetries.node.context.name) ∧
      ((rootSap 0 :: laterSaps).Pairwise fun a b => a.sectionPrefix.bits <+: b.sectionPrefix.bits) ∧
      (∀ p ∈ racingRetries.handlers, p.1.kind.members? = none ∧ ∃ n ≤ laterSaps.length,
        p.1.sectionTreeUpdate = historyUpdate (rootSap 0) laterSaps n) ∧
      (racingRetries.run quietEnv [0, 1, 0, 1, 0, 1, 0, 1, 0, 1]).Finished := by
  refine ⟨by simp [Fresh, racingRetries, memberSystem], by decide,
    by simp [laterSaps, rootSap, Prefix.matches], by simp [laterSaps, rootSap], fun p hp => ?_,
    finished_of_scheduled quietEnv _ _ (by decide)⟩
  simp only [racingRetries, memberSystem, List.map_cons, List.map_nil, List.mem_cons,
    List.mem_nil_iff, or_false] at hp
  rcases hp with rfl | rfl
  · exact ⟨rfl, 1, by decide, rfl⟩
  · exact ⟨rfl, 2, by decide, rfl⟩

/-- The Retries racing on node `0`, each handler given its five steps, leave node `0` with the
update to key `2` alone applied. -/
theorem racing_retries_commute :
    racingRetries.Fresh ∧ ((rootSap 0 :: laterSaps).map (·.sectionKey)).Nodup ∧
      (∀ s ∈ rootSap 0 :: laterSaps, s.sectionPrefix.matches racingRetries.node.context.name) ∧
      ((rootSap 0 :: laterSaps).Pairwise fun a b => a.sectionPrefix.bits <+: b.sectionPrefix.bits) ∧
      racingRetries.node.context.networkKnowledge.signedSap = rootSap 0 ∧
      (∀ p ∈ racingRetries.handlers, p.1.kind.members? = none ∧ ∃ n ≤ laterSaps.length,
        p.1.sectionTreeUpdate = historyUpdate (rootSap 0) laterSaps n) ∧
      (racingRetries.run quietEnv [0, 1, 0, 1, 0, 1, 0, 1, 0, 1]).Finished ∧
      (racingRetries.run quietEnv [0, 1, 0, 1, 0, 1, 0, 1, 0, 1]).node.context.networkKnowledge =
        (racingRetries.node.context.networkKnowledge.updateOurSection (historyUpdate (rootSap 0)
          laterSaps ((racingRetries.handlers.map fun p => level p.1).foldr max 0))).2 := by
  obtain ⟨hf, hK, hpre, hsplit, hmsgs, hdone⟩ := racingRetries_history
  exact ⟨hf, hK, hpre, hsplit, rfl, hmsgs, hdone,
    run_knowledge_is_highest_update quietEnv _ hf _ _ hK hpre hsplit rfl hmsgs _ hdone⟩

/-- The Retries racing on node `0`, interleaved, leave node `0` with the knowledge the atomic
handler leaves when it takes the Retry to key `2` first and then the one to key `1`. -/
theorem racing_retries_linearize :
    racingRetries.Fresh ∧ ((rootSap 0 :: laterSaps).map (·.sectionKey)).Nodup ∧
      (∀ s ∈ rootSap 0 :: laterSaps, s.sectionPrefix.matches racingRetries.node.context.name) ∧
      ((rootSap 0 :: laterSaps).Pairwise fun a b => a.sectionPrefix.bits <+: b.sectionPrefix.bits) ∧
      racingRetries.node.context.networkKnowledge.signedSap = rootSap 0 ∧
      (∀ p ∈ racingRetries.handlers, p.1.kind.members? = none ∧ ∃ n ≤ laterSaps.length,
        p.1.sectionTreeUpdate = historyUpdate (rootSap 0) laterSaps n) ∧
      (racingRetries.run quietEnv [0, 1, 0, 1, 0, 1, 0, 1, 0, 1]).Finished ∧
      [historyRetry 2, historyRetry 1].Perm (racingRetries.handlers.map Prod.fst) ∧
      (racingRetries.run quietEnv [0, 1, 0, 1, 0, 1, 0, 1, 0, 1]).node.context.networkKnowledge =
        (serialAtomic quietEnv racingRetries.node [historyRetry 2, historyRetry 1]).1.context.networkKnowledge := by
  obtain ⟨hf, hK, hpre, hsplit, hmsgs, hdone⟩ := racingRetries_history
  have hperm : [historyRetry 2, historyRetry 1].Perm (racingRetries.handlers.map Prod.fst) :=
    List.Perm.swap (historyRetry 1) (historyRetry 2) []
  exact ⟨hf, hK, hpre, hsplit, rfl, hmsgs, hdone, hperm,
    run_knowledge_is_serial quietEnv _ hf _ _ hK hpre hsplit rfl hmsgs _ hdone _ hperm⟩

end System

end SafeNetwork
