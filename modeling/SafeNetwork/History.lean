import SafeNetwork.Concurrent

/-!
# What the node holds over a run

`handle_anti_entropy_msg` applies an update under the write lock to the knowledge the node
holds then, not to the snapshot it checked the update on, and it reads the node again before
it writes anything out. So, over every interleaving of the handlers (`System.run`):

* `chain_grows_over_run`: the node's section chain only grows; no handler writes back a
  knowledge older than the node's;
* `written_out_from_run`: the section tree on disk and the comms targets are the ones the
  node started with, or those of a knowledge it held at some point of the run, whose chain
  its current chain extends: what is written out is never ahead of the node's memory;
* `knowledge_well_formed_over_run`: from well-formed knowledge, the node's section tree, the
  one on disk and the contexts the handlers hold keep one entry per prefix, each with a chain
  that ends at its key, and peers within our prefix.

Two facts about schedules serve the later modules: a handler scheduled as often as it has steps
left has finished (`finished_of_scheduled`), and handlers run one after another are the atomic
handler applied message by message (`run_serial`).
-/

namespace SafeNetwork

/-- `P` holds of the contexts a handler holds between its steps: the snapshot it took at
dispatch and the context it read after its update. -/
def Stage.Holds (P : NodeContext → Prop) : Stage → Prop
  | .started start | .updated start .. => P start
  | .read start _ _ latest | .targetsSet start _ latest => P start ∧ P latest
  | .dispatched | .finished _ => True

namespace MyNode

variable (env : AeEnv) (msg : AeMsg)

/-- No step of a handler shortens the node's section chain: the one step that writes the
knowledge applies the update to the knowledge the node holds under the lock. -/
theorem handleAntiEntropyStep_chain (node : SharedNode) (st : Stage) :
    node.context.networkKnowledge.sectionChain <+:
      (handleAntiEntropyStep env msg node st).1.context.networkKnowledge.sectionChain := by
  cases st with
  | started start =>
    rcases handleAntiEntropyStep_started env msg node start with
      ⟨h, -⟩ | ⟨_, _, nk, _, hlock, h, -⟩
    · simp only [h, List.prefix_refl]
    · rw [h]
      exact NetworkKnowledge.updateKnowledgeIfValid_chain hlock
  | read _ _ u _ => cases u <;> exact List.prefix_refl _
  | targetsSet start cmds latest =>
    simp only [handleAntiEntropyStep_targetsSet, List.prefix_refl]
  | _ => exact List.prefix_refl _

/-- What one step writes out and keeps to write out: the section tree on disk and the comms
targets stay, or become those of the context the handler kept; the context it keeps is the
one it kept before, or the node's own, just read. -/
theorem handleAntiEntropyStep_writes (node : SharedNode) (st : Stage) :
    let r := handleAntiEntropyStep env msg node st
    (r.1.sectionTreeFile = node.sectionTreeFile ∨
      ∃ l, st.latest? = some l ∧ r.1.sectionTreeFile = l.networkKnowledge.sectionTree) ∧
    (r.1.commTargets = node.commTargets ∨
      ∃ l, st.latest? = some l ∧ r.1.commTargets = l.networkKnowledge.members) ∧
    ∀ l, r.2.latest? = some l → st.latest? = some l ∨ l = node.context := by
  dsimp only
  cases st with
  | started start =>
    rcases handleAntiEntropyStep_started env msg node start with
      ⟨h1, h2⟩ | ⟨_, _, _, _, _, h1, h2⟩
    · rw [h1]
      refine ⟨.inl rfl, .inl rfl, fun l hl => ?_⟩
      rcases h2 with ⟨e, h2⟩ | h2 <;> simp [h2, Stage.latest?] at hl
    · rw [h1]
      refine ⟨.inl rfl, .inl rfl, fun l hl => ?_⟩
      rcases h2 with ⟨e, h2⟩ | ⟨cmds, h2⟩ <;> simp [h2, Stage.latest?] at hl
  | updated start cmds u =>
    refine ⟨.inl rfl, .inl rfl, fun l hl => .inr ?_⟩
    cases u <;> simp [Stage.latest?] at hl
    exact hl.symm
  | read start cmds u latest =>
    cases u
    · exact ⟨.inl rfl, .inl rfl, fun l hl => by simp [Stage.latest?] at hl⟩
    · exact ⟨.inl rfl, .inr ⟨latest, rfl, rfl⟩, fun l hl => .inl hl⟩
  | targetsSet start cmds latest =>
    rw [handleAntiEntropyStep_targetsSet]
    exact ⟨.inr ⟨latest, rfl, rfl⟩, .inl rfl, fun l hl => by split_ifs at hl <;> simp [Stage.latest?] at hl⟩
  | dispatched => exact ⟨.inl rfl, .inl rfl, fun l hl => by simp [Stage.latest?] at hl⟩
  | finished r => exact ⟨.inl rfl, .inl rfl, fun l hl => by simp [Stage.latest?] at hl⟩

/-- No step lets an ill-formed knowledge in: the node's knowledge changes only by a trusted
update, the section tree goes to disk from a context the handler read, and a handler holds
only contexts it read from the node. -/
theorem handleAntiEntropyStep_wellFormed {node : SharedNode} {st : Stage}
    (hnode : node.context.networkKnowledge.WellFormed)
    (hfile : NetworkKnowledge.TreeWellFormed node.sectionTreeFile)
    (hheld : st.Holds (·.networkKnowledge.WellFormed)) :
    let r := handleAntiEntropyStep env msg node st
    r.1.context.networkKnowledge.WellFormed ∧ NetworkKnowledge.TreeWellFormed r.1.sectionTreeFile ∧
      r.2.Holds (·.networkKnowledge.WellFormed) := by
  cases st with
  | dispatched => exact ⟨hnode, hfile, hnode⟩
  | started start =>
    dsimp only
    rcases handleAntiEntropyStep_started env msg node start with
      ⟨h, ⟨e, hr⟩ | hr⟩ | ⟨_, _, nk, _, hlock, h, ⟨e, hr⟩ | ⟨cmds, hr⟩⟩
    · rw [h, hr]
      exact ⟨hnode, hfile, trivial⟩
    · rw [h, hr]
      exact ⟨hnode, hfile, hheld⟩
    · rw [h, hr]
      exact ⟨NetworkKnowledge.updateKnowledgeIfValid_wellFormed hnode hlock, hfile, trivial⟩
    · rw [h, hr]
      exact ⟨NetworkKnowledge.updateKnowledgeIfValid_wellFormed hnode hlock, hfile, hheld⟩
  | updated start cmds u => exact ⟨hnode, hfile, hheld, hnode⟩
  | read start cmds u latest =>
    cases u
    · exact ⟨hnode, hfile, trivial⟩
    · exact ⟨hnode, hfile, hheld⟩
  | targetsSet start cmds latest =>
    dsimp only
    rw [handleAntiEntropyStep_targetsSet]
    exact ⟨hnode, hheld.2.tree, trivial⟩
  | finished r => exact ⟨hnode, hfile, trivial⟩

end MyNode

namespace System

variable (env : AeEnv)

theorem step_chain (sys : System) (i : Nat) :
    sys.node.context.networkKnowledge.sectionChain <+:
      (sys.step env i).node.context.networkKnowledge.sectionChain := by
  unfold step
  split
  · exact MyNode.handleAntiEntropyStep_chain env _ _ _
  · exact List.prefix_refl _

theorem run_chain (sys : System) (t : List Nat) :
    sys.node.context.networkKnowledge.sectionChain <+:
      (sys.run env t).node.context.networkKnowledge.sectionChain := by
  induction t generalizing sys with
  | nil => exact List.prefix_refl _
  | cons i is ih => exact (step_chain env sys i).trans (ih _)

/-- Over every interleaving of the handlers, the node's section chain only grows: its chain
after the steps `s` is a prefix of its chain after any further steps `t`. -/
theorem chain_grows_over_run (sys : System) (s t : List Nat) :
    (sys.run env s).node.context.networkKnowledge.sectionChain <+:
      (sys.run env (s ++ t)).node.context.networkKnowledge.sectionChain := by
  rw [run_append]
  exact run_chain env _ t

/-- The node's context after the first `j` steps of `schedule`. -/
def contextAt (sys : System) (schedule : List Nat) (j : Nat) : NodeContext :=
  (sys.run env (schedule.take j)).node.context

/-- `x` is what `f` gives of the node's context after some first steps of `schedule`. -/
def OfPastContext {α : Type} (sys : System) (schedule : List Nat) (f : NodeContext → α) (x : α) :
    Prop :=
  ∃ j ≤ schedule.length, x = f (sys.contextAt env schedule j)

theorem OfPastContext.snoc {α : Type} {sys : System} {s : List Nat} {f : NodeContext → α} {x : α}
    (i : Nat) (h : sys.OfPastContext env s f x) : sys.OfPastContext env (s ++ [i]) f x := by
  obtain ⟨j, hj, rfl⟩ := h
  exact ⟨j, by simp; omega, by simp only [contextAt, List.take_append_of_le_length hj]⟩

theorem OfPastContext.map {α : Type} {sys : System} {s : List Nat} {l : NodeContext}
    (f : NodeContext → α) (h : sys.OfPastContext env s id l) : sys.OfPastContext env s f (f l) := by
  obtain ⟨j, hj, rfl⟩ := h
  exact ⟨j, hj, rfl⟩

theorem ofPastContext_current (sys : System) (s : List Nat) (i : Nat) :
    sys.OfPastContext env (s ++ [i]) id (sys.run env s).node.context :=
  ⟨s.length, by simp, by simp [contextAt]⟩

/-- The invariant behind `written_out_from_run`: the section tree on disk and the comms
targets are the first ones or those of a past context, and so is every context a handler
keeps to write out. -/
structure FromRun (sys : System) (s : List Nat) : Prop where
  file : (sys.run env s).node.sectionTreeFile = sys.node.sectionTreeFile ∨
    sys.OfPastContext env s (·.networkKnowledge.sectionTree) (sys.run env s).node.sectionTreeFile
  targets : (sys.run env s).node.commTargets = sys.node.commTargets ∨
    sys.OfPastContext env s (·.networkKnowledge.members) (sys.run env s).node.commTargets
  latest : ∀ p ∈ (sys.run env s).handlers, ∀ l, p.2.latest? = some l →
    sys.OfPastContext env s id l

theorem FromRun.nil {sys : System} (hf : sys.Fresh) : sys.FromRun env [] where
  file := .inl rfl
  targets := .inl rfl
  latest p hp l hl := by simp [hf p hp, Stage.latest?] at hl

theorem FromRun.snoc {sys : System} {s : List Nat} (h : sys.FromRun env s) (i : Nat) :
    sys.FromRun env (s ++ [i]) := by
  have hfile := h.file.imp_right (·.snoc env i)
  have htargets := h.targets.imp_right (·.snoc env i)
  have hlatest := fun p hp l hl => (h.latest p hp l hl).snoc env i
  have hrun : sys.run env (s ++ [i]) = (sys.run env s).step env i := by rw [run_append]; rfl
  cases hi : (sys.run env s).handlers[i]? with
  | none =>
    have hstep : (sys.run env s).step env i = sys.run env s := by simp [step, hi]
    rw [hstep] at hrun
    exact ⟨hrun ▸ hfile, hrun ▸ htargets, hrun ▸ hlatest⟩
  | some q =>
    obtain ⟨msg, st⟩ := q
    rw [step_of_getElem? env hi] at hrun
    obtain ⟨hf, ht, hl⟩ := MyNode.handleAntiEntropyStep_writes env msg (sys.run env s).node st
    have hold : ∀ l, st.latest? = some l → sys.OfPastContext env (s ++ [i]) id l :=
      fun l h => hlatest _ (List.getElem?_mem hi) l h
    refine ⟨?_, ?_, fun p hp l hpl => ?_⟩
    · rw [hrun]
      rcases hf with hf | ⟨l, hsl, hf⟩
      · rw [hf]; exact hfile
      · rw [hf]; exact .inr ((hold l hsl).map env _)
    · rw [hrun]
      rcases ht with ht | ⟨l, hsl, ht⟩
      · rw [ht]; exact htargets
      · rw [ht]; exact .inr ((hold l hsl).map env _)
    · rw [hrun] at hp
      rcases List.mem_or_eq_of_mem_set hp with hp | rfl
      · exact hlatest p hp l hpl
      · rcases hl l hpl with hl | rfl
        · exact hold l hl
        · exact ofPastContext_current env sys s i

theorem fromRun (sys : System) (hf : sys.Fresh) (s : List Nat) : sys.FromRun env s := by
  induction s using List.reverseRecOn with
  | nil => exact FromRun.nil env hf
  | append_singleton s i ih => exact ih.snoc env i

/-- What the node has written out after `schedule` comes from the run: the section tree on
disk and the comms targets are the ones it started with, or those of the knowledge it held
after some first steps of the schedule, which its current chain extends. -/
structure WrittenFromRun (sys : System) (schedule : List Nat) : Prop where
  file : (sys.run env schedule).node.sectionTreeFile = sys.node.sectionTreeFile ∨
    ∃ j ≤ schedule.length, (sys.run env schedule).node.sectionTreeFile =
        (sys.contextAt env schedule j).networkKnowledge.sectionTree ∧
      (sys.contextAt env schedule j).networkKnowledge.sectionChain <+:
        (sys.run env schedule).node.context.networkKnowledge.sectionChain
  targets : (sys.run env schedule).node.commTargets = sys.node.commTargets ∨
    ∃ j ≤ schedule.length, (sys.run env schedule).node.commTargets =
        (sys.contextAt env schedule j).networkKnowledge.members ∧
      (sys.contextAt env schedule j).networkKnowledge.sectionChain <+:
        (sys.run env schedule).node.context.networkKnowledge.sectionChain

theorem contextAt_chain (sys : System) (schedule : List Nat) (j : Nat) :
    (sys.contextAt env schedule j).networkKnowledge.sectionChain <+:
      (sys.run env schedule).node.context.networkKnowledge.sectionChain := by
  have h := chain_grows_over_run env sys (schedule.take j) (schedule.drop j)
  rwa [List.take_append_drop] at h

/-- Over every interleaving of handlers that have not yet started, the section tree on disk
and the comms targets are the node's first ones, or those of a knowledge the node held during
the run: never a knowledge newer than the node's, nor one it never held. -/
theorem written_out_from_run (sys : System) (hf : sys.Fresh) (schedule : List Nat) :
    sys.WrittenFromRun env schedule := by
  obtain ⟨hfile, htargets, -⟩ := fromRun env sys hf schedule
  exact ⟨hfile.imp_right fun ⟨j, hj, h⟩ => ⟨j, hj, h, contextAt_chain env sys schedule j⟩,
    htargets.imp_right fun ⟨j, hj, h⟩ => ⟨j, hj, h, contextAt_chain env sys schedule j⟩⟩

/-- The two Updates racing on node `0`, interleaved so that the removal handler writes out
last the context it read before the newer update landed. -/
theorem racing_run_written_from_run :
    racingSystem.Fresh ∧ racingSystem.WrittenFromRun quietEnv [0, 0, 0, 1, 1, 1, 1, 1, 0, 0] :=
  have hf : racingSystem.Fresh := by simp [Fresh, racingSystem, memberSystem]
  ⟨hf, written_out_from_run quietEnv _ hf _⟩

/-! ## Well-formed knowledge over every run -/

/-- Every knowledge the system holds is well formed: the node's, the section tree it wrote to
disk, and the contexts its handlers hold. -/
structure WellFormed (sys : System) : Prop where
  node : sys.node.context.networkKnowledge.WellFormed
  file : NetworkKnowledge.TreeWellFormed sys.node.sectionTreeFile
  held : ∀ p ∈ sys.handlers, p.2.Holds (·.networkKnowledge.WellFormed)

theorem step_wellFormed {sys : System} (h : sys.WellFormed) (i : Nat) :
    (sys.step env i).WellFormed := by
  unfold step
  split
  · next msg st hi =>
    obtain ⟨hn, hf, hs⟩ :=
      MyNode.handleAntiEntropyStep_wellFormed env msg h.node h.file (h.held _ (List.getElem?_mem hi))
    refine ⟨hn, hf, fun p hp => ?_⟩
    rcases List.mem_or_eq_of_mem_set hp with hp | rfl
    · exact h.held p hp
    · exact hs
  · exact h

/-- Over every interleaving of the handlers, from any state whose knowledge is well formed,
the node's section tree keeps one entry per prefix, each with a proof chain that ends at its
key, its peers stay within our prefix, and the section tree on disk keeps the same shape. -/
theorem knowledge_well_formed_over_run {sys : System} (h : sys.WellFormed) (schedule : List Nat) :
    (sys.run env schedule).WellFormed := by
  induction schedule generalizing sys with
  | nil => exact h
  | cons i is ih => exact ih (step_wellFormed env h i)

theorem memberKnowledge_wellFormed : memberKnowledge.WellFormed :=
  ⟨⟨List.nodup_singleton _, by simp [memberKnowledge, rootSap]⟩,
    by simp [memberKnowledge, NetworkKnowledge.sectionPrefix, rootSap, Prefix.matches]⟩

/-- Two Updates racing on node `0`, interleaved, leave every knowledge in sight well formed. -/
theorem racing_updates_stay_well_formed :
    (memberSystem [removalUpdate, newerUpdate]).WellFormed ∧
      ((memberSystem [removalUpdate, newerUpdate]).run quietEnv [0, 1, 1, 0, 0, 1]).WellFormed :=
  have h : (memberSystem [removalUpdate, newerUpdate]).WellFormed :=
    ⟨memberKnowledge_wellFormed, memberKnowledge_wellFormed.tree, by simp [memberSystem, Stage.Holds]⟩
  ⟨h, knowledge_well_formed_over_run quietEnv h _⟩

/-! ## Every handler finishes -/

/-- How many steps handler `i` has left at most; none when there is no handler `i`. -/
def leftAt (sys : System) (i : Nat) : Nat := (sys.handlers[i]?.map (·.2.left)).getD 0

theorem leftAt_step (sys : System) (i j : Nat) :
    (sys.step env j).leftAt i ≤ sys.leftAt i - if j = i then 1 else 0 := by
  unfold step
  split
  · next msg st hj =>
    by_cases hji : j = i
    · subst hji
      simp only [leftAt, List.getElem?_set_self (List.getElem?_eq_some_iff.1 hj).1, hj,
        Option.map_some', Option.getD_some, if_true]
      rcases MyNode.handleAntiEntropyStep_left env msg sys.node st with h | ⟨r, rfl, h⟩
      · omega
      · simp [h, Stage.left]
    · simp only [leftAt, List.getElem?_set_ne hji, if_neg hji]
      omega
  · next hj =>
    by_cases hji : j = i
    · subst hji
      simp [leftAt, hj]
    · simp [leftAt, hji]

theorem leftAt_run (sys : System) (schedule : List Nat) (i : Nat) :
    (sys.run env schedule).leftAt i ≤ sys.leftAt i - schedule.count i := by
  induction schedule generalizing sys with
  | nil => simp
  | cons j s ih =>
    have h1 := ih (sys.step env j)
    have h2 := leftAt_step env sys i j
    rw [run_cons, List.count_cons]
    by_cases hji : j = i
    · subst hji
      simp only [beq_self_eq_true, if_true] at h2 ⊢
      omega
    · simp only [hji, beq_iff_eq, if_false] at h2 ⊢
      omega

theorem length_run (sys : System) (schedule : List Nat) :
    (sys.run env schedule).handlers.length = sys.handlers.length := by
  induction schedule generalizing sys with
  | nil => rfl
  | cons i is ih =>
    rw [run_cons, ih]
    unfold step
    split <;> simp

/-- A handler scheduled as many times as it has steps left has finished, whatever the other
handlers do in between. -/
theorem finished_of_scheduled (sys : System) (schedule : List Nat)
    (h : ∀ i < sys.handlers.length, sys.leftAt i ≤ schedule.count i) :
    (sys.run env schedule).Finished := by
  intro p hp
  obtain ⟨i, hi⟩ := List.mem_iff_getElem?.1 hp
  have hlt : i < sys.handlers.length := by
    rw [← length_run env sys schedule]
    exact (List.getElem?_eq_some_iff.1 hi).1
  have hleft : (sys.run env schedule).leftAt i = p.2.left := by simp [leftAt, hi]
  have hle := leftAt_run env sys schedule i
  have hfair := h i hlt
  exact MyNode.Stage.left_eq_zero (by omega)

/-! ## Serial runs are the atomic handler -/

/-- The atomic handler applied to the messages in turn: the node after them, and each
message with the stage its handler ends in. -/
def serialAtomic : SharedNode → List AeMsg → SharedNode × List (AeMsg × Stage)
  | node, [] => (node, [])
  | node, m :: ms =>
    let r := MyNode.handleAntiEntropyMsg env m node
    ((serialAtomic r.1 ms).1, (m, r.2) :: (serialAtomic r.1 ms).2)

theorem set_of_getElem? {l : List (AeMsg × Stage)} {i : Nat} {p : AeMsg × Stage}
    (h : l[i]? = some p) : l.set i p = l := by
  refine List.ext_getElem? fun j => ?_
  by_cases hij : i = j
  · subst hij
    simp [List.getElem?_set, h, (List.getElem?_eq_some_iff.1 h).1]
  · simp [List.getElem?_set, hij]

/-- Handler `i` stepped `k` times in a row takes its own steps from its stage on the node. -/
theorem run_replicate {sys : System} {i : Nat} {msg : AeMsg} {st : Stage}
    (hi : sys.handlers[i]? = some (msg, st)) (k : Nat) :
    sys.run env (List.replicate k i) =
      ⟨((fun q : SharedNode × Stage => MyNode.handleAntiEntropyStep env msg q.1 q.2)^[k]
          (sys.node, st)).1,
        sys.handlers.set i (msg,
          ((fun q : SharedNode × Stage => MyNode.handleAntiEntropyStep env msg q.1 q.2)^[k]
            (sys.node, st)).2)⟩ := by
  induction k generalizing sys st with
  | zero => simp [set_of_getElem? hi]
  | succ k ih =>
    rw [List.replicate_succ, run_cons, step_of_getElem? env hi,
      ih (List.getElem?_set_self (List.getElem?_eq_some_iff.1 hi).1)]
    simp [Function.iterate_succ_apply, List.set_set]

theorem run_serial (done : List (AeMsg × Stage)) (node : SharedNode) (msgs : List AeMsg) :
    (System.mk node (done ++ msgs.map (·, .dispatched))).run env
        ((List.range' done.length msgs.length).flatMap fun i => List.replicate 6 i) =
      ⟨(serialAtomic env node msgs).1, done ++ (serialAtomic env node msgs).2⟩ := by
  induction msgs generalizing done node with
  | nil => rfl
  | cons m ms ih =>
    have hi : (done ++ (m :: ms).map (·, Stage.dispatched))[done.length]? = some (m, .dispatched) := by
      rw [List.getElem?_append_right le_rfl, Nat.sub_self, List.map_cons, List.getElem?_cons_zero]
    rw [List.length_cons, List.range'_succ, List.flatMap_cons, run_append, run_replicate env hi,
      List.set_append_right _ _ le_rfl, Nat.sub_self, List.map_cons, List.set_cons_zero]
    simpa [serialAtomic, MyNode.handleAntiEntropyMsg, List.append_assoc] using
      ih (done ++ [(m, (MyNode.handleAntiEntropyMsg env m node).2)])
        (MyNode.handleAntiEntropyMsg env m node).1

end System

end SafeNetwork
