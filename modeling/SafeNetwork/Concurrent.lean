import SafeNetwork.Handler

/-!
# Concurrent anti-entropy handlers

The node runs `handle_anti_entropy_msg` as one task per AE message, all on the one node
behind its read-write lock. Each critical section, and each of the writes to disk and to the
comms targets after the lock is released, is one atomic step
(`MyNode.handleAntiEntropyStep`). A `System` is the node with the handlers in flight; a
schedule names the handler that steps next (`System.run`).

A handler's own steps are the only ones that move it (`run_getElem?_of_not_mem`), so in a
schedule that reaches its first three steps after `s₀`, `s₁` and `s₂` it snapshots the node as
`s₀` leaves it, updates the node as `s₁` leaves it and reads the node as `s₂` leaves it
(`run_handler_result`). Over every interleaving:

* a handler that returns `Ok` returns the commands it gathered (those of
  `update_on_section_change`, and the request for data) followed by exactly its own re-send,
  whichever handler applied the carried SAP (`handler_ok_resends_bounced_msg`);
* the removal check compares the snapshot taken at dispatch with the context read after the
  update (`removal_judged_against_snapshot`);
* the section tree on disk and the comms targets agree with the knowledge once every handler
  has finished, provided no update lands while another handler is between its read of the
  node and its writes, and no handler fails after changing the knowledge
  (`persisted_after_orderly_run`).
-/

namespace SafeNetwork

/-- The node and the anti-entropy handlers in flight on it, each with its message and
stage. -/
structure System where
  node : SharedNode
  handlers : List (AeMsg × Stage)

namespace System

variable (env : AeEnv)

/-- Handler `i` takes its next atomic step; there is no handler `i`, nothing happens. -/
def step (sys : System) (i : Nat) : System :=
  match sys.handlers[i]? with
  | some (msg, st) =>
    let r := MyNode.handleAntiEntropyStep env msg sys.node st
    ⟨r.1, sys.handlers.set i (msg, r.2)⟩
  | none => sys

/-- The steps of a schedule, in order. -/
def run (sys : System) (schedule : List Nat) : System := schedule.foldl (step env) sys

@[simp] theorem run_nil (sys : System) : sys.run env [] = sys := rfl

@[simp] theorem run_cons (sys : System) (i : Nat) (schedule : List Nat) :
    sys.run env (i :: schedule) = (sys.step env i).run env schedule := rfl

theorem run_append (sys : System) (s t : List Nat) :
    sys.run env (s ++ t) = (sys.run env s).run env t :=
  List.foldl_append _ _ _ _

theorem step_of_getElem? {sys : System} {i : Nat} {msg : AeMsg} {st : Stage}
    (h : sys.handlers[i]? = some (msg, st)) :
    sys.step env i = ⟨(MyNode.handleAntiEntropyStep env msg sys.node st).1,
      sys.handlers.set i (msg, (MyNode.handleAntiEntropyStep env msg sys.node st).2)⟩ := by
  simp [step, h]

/-- Every handler is yet to take its first step. -/
def Fresh (sys : System) : Prop := ∀ p ∈ sys.handlers, p.2 = .dispatched

/-- A step of another handler leaves handler `i` as it is. -/
theorem step_getElem?_ne (sys : System) {i j : Nat} (h : j ≠ i) :
    (sys.step env j).handlers[i]? = sys.handlers[i]? := by
  unfold step
  split
  · exact List.getElem?_set_ne h
  · rfl

/-- Steps of the other handlers leave handler `i` as it is. -/
theorem run_getElem?_of_not_mem (sys : System) {i : Nat} {s : List Nat} (h : i ∉ s) :
    (sys.run env s).handlers[i]? = sys.handlers[i]? := by
  induction s generalizing sys with
  | nil => rfl
  | cons j s ih =>
    rw [List.mem_cons, not_or] at h
    rw [run_cons, ih _ h.2, step_getElem?_ne env sys (Ne.symm h.1)]

/-- Handler `i`'s own step moves it and the node as `handleAntiEntropyStep` says. -/
theorem step_self {sys : System} {i : Nat} {msg : AeMsg} {st : Stage}
    (h : sys.handlers[i]? = some (msg, st)) :
    (sys.step env i).handlers[i]? = some (msg, (MyNode.handleAntiEntropyStep env msg sys.node st).2) ∧
      (sys.step env i).node = (MyNode.handleAntiEntropyStep env msg sys.node st).1 := by
  rw [step_of_getElem? env h]
  exact ⟨List.getElem?_set_self (List.getElem?_eq_some_iff.1 h).1, rfl⟩

/-- A property of handler `i`'s stage that its own steps keep, on any node, holds of it after
any schedule. -/
theorem run_getElem?_inv (P : Stage → Prop) {msg : AeMsg}
    (hP : ∀ node st, P st → P (MyNode.handleAntiEntropyStep env msg node st).2) {sys : System}
    {i : Nat} {st : Stage} (hi : sys.handlers[i]? = some (msg, st)) (h : P st) (s : List Nat) :
    ∃ st', (sys.run env s).handlers[i]? = some (msg, st') ∧ P st' := by
  induction s generalizing sys st with
  | nil => exact ⟨st, hi, h⟩
  | cons j s ih =>
    rw [run_cons]
    by_cases hj : j = i
    · subst hj
      exact ih (step_self env hi).1 (hP _ _ h)
    · exact ih (by rw [step_getElem?_ne env sys hj, hi]) h

end System

/-! ## Fixtures: updates racing on one node

Node `0` is the only member of the only section (the empty prefix), at its first key `0`.
Two AE Updates race on it: one to key `1` that records node `0` as having left, and one to
key `2`. -/

/-- A SAP of the whole network with key `k` and no elders. -/
def rootSap (k : BlsPublicKey) : SectionAuthorityProvider := ⟨⟨[]⟩, k, [], List.nodup_nil⟩

/-- Node `0`'s knowledge: a member, at key `0`. -/
def memberKnowledge : NetworkKnowledge :=
  ⟨rootSap 0, [0], [⟨rootSap 0, [0]⟩], [⟨0, .joined⟩], rfl⟩

/-- An AE Update to key `1` that records node `0` as having left. -/
def removalUpdate : AeMsg := ⟨⟨rootSap 1, [0, 1]⟩, .update [⟨0, .left⟩], ⟨1, 0⟩⟩

/-- An AE Update to key `2`. -/
def newerUpdate : AeMsg := ⟨⟨rootSap 2, [0, 1, 2]⟩, .update [], ⟨2, 0⟩⟩

/-- A Retry bouncing `b` with a SAP of key `k + 1` whose chain starts at no known key. -/
def untrustedRetry (k : BlsPublicKey) (b : UsrMsgBytes) : AeMsg :=
  ⟨⟨rootSap (k + 1), [k + 1]⟩, .retry b, ⟨1, 0⟩⟩

/-- `memberKnowledge` after `removalUpdate`. -/
def removedKnowledge : NetworkKnowledge :=
  ⟨rootSap 1, [0, 1], [⟨rootSap 1, [0, 1]⟩], [⟨0, .left⟩], rfl⟩

/-- `removedKnowledge` after `newerUpdate`. -/
def newerKnowledge : NetworkKnowledge :=
  ⟨rootSap 2, [0, 1, 2], [⟨rootSap 2, [0, 1, 2]⟩], [⟨0, .left⟩], rfl⟩

/-- `memberKnowledge` after an update to key `2` that records no member: node `0` still a
member. -/
def retriedKnowledge : NetworkKnowledge :=
  ⟨rootSap 2, [0, 1, 2], [⟨rootSap 2, [0, 1, 2]⟩], [⟨0, .joined⟩], rfl⟩

/-- Node `0` with `memberKnowledge` persisted, and a handler dispatched for each message. -/
def memberSystem (msgs : List AeMsg) : System :=
  ⟨⟨⟨0, memberKnowledge⟩, memberKnowledge.sectionTree, memberKnowledge.members⟩,
    msgs.map (·, .dispatched)⟩

/-- Node `0` with handlers of the Updates to key `1` and to key `2`. -/
def racingSystem : System := memberSystem [removalUpdate, newerUpdate]

/-- Collaborators that succeed and schedule nothing but the request for data. -/
def quietEnv : AeEnv := ⟨MyNode.emptyCodec, fun _ => 0, fun _ _ => .ok [], fun _ => .other 0⟩

theorem removal_applies : memberKnowledge.updateKnowledgeIfValid removalUpdate.sectionTreeUpdate
    removalUpdate.kind.members? 0 = .ok (true, removedKnowledge) := rfl

theorem newer_applies_after_removal :
    removedKnowledge.updateKnowledgeIfValid newerUpdate.sectionTreeUpdate
      newerUpdate.kind.members? 0 = .ok (true, newerKnowledge) := rfl

theorem newer_applies : memberKnowledge.updateKnowledgeIfValid newerUpdate.sectionTreeUpdate
    newerUpdate.kind.members? 0 = .ok (true, retriedKnowledge) := rfl

theorem untrusted_retry_fails (k : BlsPublicKey) (b : UsrMsgBytes) :
    memberKnowledge.updateKnowledgeIfValid (untrustedRetry k b).sectionTreeUpdate
      (untrustedRetry k b).kind.members? 0 = .error .untrustedUpdate := by
  simp [NetworkKnowledge.updateKnowledgeIfValid, NetworkKnowledge.verifies,
    NetworkKnowledge.knownKeys, memberKnowledge, untrustedRetry]

theorem resend_update (msg : AeMsg) {members : List NodeState} (h : msg.kind = .update members)
    {env : AeEnv} {latest : NodeContext} {cmds : List Cmd} :
    MyNode.resendBouncedMsg env msg latest cmds = .ok cmds :=
  MyNode.resendBouncedMsg_none env msg (MyNode.bouncedTarget_update env msg h)

@[simp] theorem member_isMember : memberKnowledge.isMember 0 = true := rfl
@[simp] theorem removed_isMember : removedKnowledge.isMember 0 = false := rfl
@[simp] theorem newer_isMember : newerKnowledge.isMember 0 = false := rfl

/-! ## Re-sending the bounced message -/

namespace MyNode

variable (env : AeEnv) (msg : AeMsg)

/-- What a handler returns once it has read `latest` after its update: `RejoinRequired` when
its update reported a change and the node, a member in its snapshot `start`, is no member in
`latest`; else its re-send, after the commands it gathered and, when its update reported a
change, the request for data. -/
def finalResult (start : NodeContext) (cmds : List Cmd) (u : Bool) (latest : NodeContext) :
    Except Error (List Cmd) :=
  if u ∧ start.networkKnowledge.isMember latest.name ∧ ¬ latest.networkKnowledge.isMember latest.name then
    .error (.rejoinRequired .removedFromSection)
  else resendBouncedMsg env msg latest (cmds ++ if u then [env.askForAnyNewDataFromWholeSection latest] else [])

/-- A handler that has read `latest` after its update finishes with `finalResult`, whatever
the node it takes its last steps on. -/
theorem handleAntiEntropyStep_read_finishes {start latest : NodeContext} {cmds : List Cmd}
    {u : Bool} (node : SharedNode) {st : Stage}
    (h : st = .read start cmds u latest ∨ (u = true ∧ st = .targetsSet start cmds latest) ∨
      st = .finished (finalResult env msg start cmds u latest)) :
    let st' := (handleAntiEntropyStep env msg node st).2
    st' = .read start cmds u latest ∨ (u = true ∧ st' = .targetsSet start cmds latest) ∨
      st' = .finished (finalResult env msg start cmds u latest) := by
  rcases h with rfl | ⟨rfl, rfl⟩ | rfl
  · cases u
    · exact .inr (.inr (by simp [finalResult]))
    · exact .inr (.inl ⟨rfl, rfl⟩)
  · exact .inr (.inr (by rw [handleAntiEntropyStep_targetsSet]; simp [finalResult]))
  · exact .inr (.inr rfl)

/-- The write-locked step leaves a handler updated only from its own snapshot: with nothing
gathered when the check on the snapshot found nothing to apply, and otherwise with the
commands of `update_on_section_change` after the update of the node, whose report it keeps. -/
theorem handleAntiEntropyStep_started_updated {node : SharedNode} {start start' : NodeContext}
    {cmds : List Cmd} {u : Bool}
    (h : (handleAntiEntropyStep env msg node (.started start)).2 = .updated start' cmds u) :
    start' = start ∧
      ((cmds = [] ∧ u = false ∧ ∃ x, start.networkKnowledge.updateKnowledgeIfValid
          msg.sectionTreeUpdate msg.kind.members? start.name = .ok (false, x)) ∨
        ∃ x nk, start.networkKnowledge.updateKnowledgeIfValid msg.sectionTreeUpdate
            msg.kind.members? start.name = .ok (true, x) ∧
          node.context.networkKnowledge.updateKnowledgeIfValid msg.sectionTreeUpdate
            msg.kind.members? start.name = .ok (u, nk) ∧
          env.updateOnSectionChange ⟨node.context.name, nk⟩ start = .ok cmds) := by
  simp only [handleAntiEntropyStep] at h
  split at h
  · cases h
  · next x hpre =>
    cases h
    exact ⟨rfl, .inl ⟨rfl, rfl, x, hpre⟩⟩
  · next x hpre =>
    split at h
    · cases h
    · next u' nk hlock =>
      split at h
      · cases h
      · next g hch =>
        cases h
        exact ⟨rfl, .inr ⟨x, nk, hpre, hlock, hch⟩⟩

/-- The commands a handler has gathered before its re-send, with its snapshot `start`, the
node `locked` it took the write lock on, and the context `latest` it read after: none when
the check on its snapshot found nothing to apply; otherwise those `update_on_section_change`
returned for the updated node and the snapshot, then the request for data when the
write-locked update reported a change. -/
def Gathered (start : NodeContext) (locked : SharedNode) (latest : NodeContext)
    (gathered : List Cmd) : Prop :=
  (gathered = [] ∧ ∃ x, start.networkKnowledge.updateKnowledgeIfValid msg.sectionTreeUpdate
      msg.kind.members? start.name = .ok (false, x)) ∨
    ∃ x u nk cmds, start.networkKnowledge.updateKnowledgeIfValid msg.sectionTreeUpdate
        msg.kind.members? start.name = .ok (true, x) ∧
      locked.context.networkKnowledge.updateKnowledgeIfValid msg.sectionTreeUpdate
        msg.kind.members? start.name = .ok (u, nk) ∧
      env.updateOnSectionChange ⟨locked.context.name, nk⟩ start = .ok cmds ∧
      gathered = cmds ++ if u then [env.askForAnyNewDataFromWholeSection latest] else []

/-- `cmds` are the `gathered` commands followed by the handler's own re-send under `latest`:
nothing without a target (an Update, or a Redirect whose SAP has no elders) or for a bounced
message that is no node message; for a bounced node message, one `SendMsg` of it to the
target (the sender of a Retry, the chosen elder of a Redirect) exactly when its destination key
is not the carried SAP's. -/
def AddsResend (latest : NodeContext) (gathered cmds : List Cmd) : Prop :=
  (bouncedTarget env msg = none → cmds = gathered) ∧
    ∀ b peer, bouncedTarget env msg = some (b, peer) →
      (env.codec.deserialize b = .ok .other → cmds = gathered) ∧
      ∀ id dst m, env.codec.deserialize b = .ok (.node id dst m) →
        cmds = gathered ++ if dst.sectionKey = msg.sectionTreeUpdate.signedSap.sectionKey then []
          else [.sendMsg m (.single peer) latest]

theorem resendBouncedMsg_addsResend {latest : NodeContext} {gathered cmds : List Cmd}
    (h : resendBouncedMsg env msg latest gathered = .ok cmds) : AddsResend env msg latest gathered cmds := by
  refine ⟨fun ht => ?_, fun b peer ht => ⟨fun hd => ?_, fun id dst m hd => ?_⟩⟩
  · rw [resendBouncedMsg_none env msg ht] at h
    exact (Except.ok.inj h).symm
  · simp only [resendBouncedMsg, ht, hd] at h
    exact (Except.ok.inj h).symm
  · rw [resendBouncedMsg_node env msg ht hd] at h
    exact (Except.ok.inj h).symm

end MyNode

namespace System

variable (env : AeEnv)

/-- A handler at stage `st`, which its write-locked step left, and that has finished once it
took its next step on `sys` and `rest` ran: it returned the error that step failed with, or
`finalResult` of the context it read on `sys`. -/
theorem run_result_of_locked {sys : System} {i : Nat} {msg : AeMsg} {st : Stage}
    (hi : sys.handlers[i]? = some (msg, st))
    (hst : (∃ e, st = .finished (.error e)) ∨ ∃ start cmds u, st = .updated start cmds u)
    {rest : List Nat} {r : Except Error (List Cmd)}
    (hr : ((sys.step env i).run env rest).handlers[i]? = some (msg, .finished r)) :
    (∃ e, st = .finished (.error e) ∧ r = .error e) ∨
      ∃ start cmds u, st = .updated start cmds u ∧
        r = MyNode.finalResult env msg start cmds u sys.node.context := by
  rcases hst with ⟨e, rfl⟩ | ⟨start, cmds, u, rfl⟩
  · -- it had failed, and stays finished
    obtain ⟨st', hst', rfl⟩ := run_getElem?_inv env (· = .finished (.error e))
      (fun _ _ h => by rw [h]; rfl) (step_self env hi).1 rfl rest
    exact .inl ⟨e, rfl, by simpa using hr.symm.trans hst'⟩
  · -- it reads the node, then finishes with `finalResult`
    obtain ⟨st', hst', hP⟩ := run_getElem?_inv env (fun st =>
        st = .read start cmds u sys.node.context ∨
          (u = true ∧ st = .targetsSet start cmds sys.node.context) ∨
          st = .finished (MyNode.finalResult env msg start cmds u sys.node.context))
      (fun node _ h => MyNode.handleAntiEntropyStep_read_finishes env msg node h)
      (step_self env hi).1 (.inl rfl) rest
    obtain rfl : st' = .finished r := by simpa using hst'.symm.trans hr
    refine .inr ⟨start, cmds, u, rfl, ?_⟩
    rcases hP with h | ⟨-, h⟩ | h <;> cases h
    rfl

/-- Handler `i`, dispatched, in a schedule that takes its first three steps after `s₀`, `s₁`
and `s₂`: it snapshots the node as `s₀` leaves it, takes the write lock on the node as `s₁`
leaves it, and reads the node as `s₂` leaves it. Once finished, it has returned what its
write-locked step failed with, or `finalResult` of its snapshot, of what that step left it
holding and of the context it read. -/
theorem run_handler_result (sys : System) {i : Nat} {msg : AeMsg}
    (hi : sys.handlers[i]? = some (msg, .dispatched)) {s₀ s₁ s₂ rest : List Nat}
    (h₀ : i ∉ s₀) (h₁ : i ∉ s₁) (h₂ : i ∉ s₂) {r : Except Error (List Cmd)}
    (hr : (sys.run env (s₀ ++ i :: s₁ ++ i :: s₂ ++ i :: rest)).handlers[i]? = some (msg, .finished r)) :
    (∃ e, (MyNode.handleAntiEntropyStep env msg (sys.run env (s₀ ++ i :: s₁)).node
        (.started (sys.run env s₀).node.context)).2 = .finished (.error e) ∧ r = .error e) ∨
      ∃ start cmds u, (MyNode.handleAntiEntropyStep env msg (sys.run env (s₀ ++ i :: s₁)).node
          (.started (sys.run env s₀).node.context)).2 = .updated start cmds u ∧
        r = MyNode.finalResult env msg start cmds u
          (sys.run env (s₀ ++ i :: s₁ ++ i :: s₂)).node.context := by
  have hA₀ : (sys.run env s₀).handlers[i]? = some (msg, .dispatched) :=
    (run_getElem?_of_not_mem env sys h₀).trans hi
  have hA₁ : (sys.run env (s₀ ++ i :: s₁)).handlers[i]? =
      some (msg, .started (sys.run env s₀).node.context) := by
    rw [run_append, run_cons, run_getElem?_of_not_mem env _ h₁, (step_self env hA₀).1]
    rfl
  have hA₂ : (sys.run env (s₀ ++ i :: s₁ ++ i :: s₂)).handlers[i]? =
      some (msg, (MyNode.handleAntiEntropyStep env msg (sys.run env (s₀ ++ i :: s₁)).node
        (.started (sys.run env s₀).node.context)).2) := by
    rw [run_append env _ (s₀ ++ i :: s₁), run_cons, run_getElem?_of_not_mem env _ h₂, (step_self env hA₁).1]
  rw [run_append, run_cons] at hr
  refine run_result_of_locked env hA₂ ?_ hr
  rcases MyNode.handleAntiEntropyStep_started env msg (sys.run env (s₀ ++ i :: s₁)).node
      (sys.run env s₀).node.context with ⟨_, he | he⟩ | ⟨_, _, _, _, _, _, he | ⟨cmds, he⟩⟩
  · exact .inl he
  · exact .inr ⟨_, _, _, he⟩
  · exact .inl he
  · exact .inr ⟨_, _, _, he⟩

/-- In any interleaving, a handler that returns `Ok cmds` returns the commands it gathered,
those of `update_on_section_change` on its snapshot and the request for data, followed by
exactly its own re-send under the context it read after its update, and nothing else;
whichever handler applied the carried SAP, its own or another. -/
theorem handler_ok_resends_bounced_msg (sys : System) {i : Nat} {msg : AeMsg}
    (hi : sys.handlers[i]? = some (msg, .dispatched)) {s₀ s₁ s₂ rest : List Nat}
    (h₀ : i ∉ s₀) (h₁ : i ∉ s₁) (h₂ : i ∉ s₂) {cmds : List Cmd}
    (hr : (sys.run env (s₀ ++ i :: s₁ ++ i :: s₂ ++ i :: rest)).handlers[i]? =
      some (msg, .finished (.ok cmds))) :
    ∃ gathered, MyNode.Gathered env msg (sys.run env s₀).node.context
        (sys.run env (s₀ ++ i :: s₁)).node (sys.run env (s₀ ++ i :: s₁ ++ i :: s₂)).node.context
        gathered ∧
      MyNode.AddsResend env msg (sys.run env (s₀ ++ i :: s₁ ++ i :: s₂)).node.context gathered cmds := by
  rcases run_handler_result env sys hi h₀ h₁ h₂ hr with ⟨e, -, he⟩ | ⟨start, g, u, hst, hres⟩
  · cases he
  · obtain ⟨rfl, hg⟩ := MyNode.handleAntiEntropyStep_started_updated env msg hst
    refine ⟨g ++ if u then [env.askForAnyNewDataFromWholeSection
      (sys.run env (s₀ ++ i :: s₁ ++ i :: s₂)).node.context] else [], ?_, ?_⟩
    · rcases hg with ⟨rfl, rfl, hpre⟩ | ⟨x, nk, hpre, hlock, hch⟩
      · exact .inl ⟨rfl, hpre⟩
      · exact .inr ⟨x, u, nk, g, hpre, hlock, hch, rfl⟩
    · unfold MyNode.finalResult at hres
      split at hres
      · cases hres
      · exact MyNode.resendBouncedMsg_addsResend env msg hres.symm

/-- A Retry to key `2`, of the history `0`, `1`, `2`, bouncing `b` from node `1`. -/
def newerRetry (b : UsrMsgBytes) : AeMsg := ⟨⟨rootSap 2, [0, 1, 2]⟩, .retry b, ⟨1, 0⟩⟩

/-- Collaborators that read every bounced message as the node message `other 0` to node `0`
under key `0`. -/
def resendEnv : AeEnv :=
  ⟨{ MyNode.emptyCodec with deserialize := fun _ => .ok (.node 0 ⟨0, 0⟩ (.other 0)) },
    fun _ => 0, fun _ _ => .ok [], fun _ => .other 0⟩

/-- Two handlers of the same Retry race on node `0`: the first applies its SAP and runs to its
end; the second, which took its snapshot before, finds nothing to apply under the lock, and
still re-sends the bounced message. -/
theorem racing_retry_still_resends :
    (memberSystem [newerRetry [], newerRetry []]).handlers[1]? = some (newerRetry [], .dispatched) ∧
      1 ∉ [0] ∧ 1 ∉ [0, 0, 0, 0] ∧ 1 ∉ ([] : List Nat) ∧
      ((memberSystem [newerRetry [], newerRetry []]).run resendEnv
          ([0] ++ 1 :: [0, 0, 0, 0] ++ 1 :: [] ++ 1 :: [1])).handlers[1]? =
        some (newerRetry [], .finished (.ok [.sendMsg (.other 0) (.single ⟨1, 0⟩) ⟨0, retriedKnowledge⟩])) ∧
      ∃ gathered, MyNode.Gathered resendEnv (newerRetry [])
          ((memberSystem [newerRetry [], newerRetry []]).run resendEnv [0]).node.context
          ((memberSystem [newerRetry [], newerRetry []]).run resendEnv ([0] ++ 1 :: [0, 0, 0, 0])).node
          ((memberSystem [newerRetry [], newerRetry []]).run resendEnv
            ([0] ++ 1 :: [0, 0, 0, 0] ++ 1 :: [])).node.context gathered ∧
        MyNode.AddsResend resendEnv (newerRetry [])
          ((memberSystem [newerRetry [], newerRetry []]).run resendEnv
            ([0] ++ 1 :: [0, 0, 0, 0] ++ 1 :: [])).node.context gathered
          [.sendMsg (.other 0) (.single ⟨1, 0⟩) ⟨0, retriedKnowledge⟩] := by
  have happ : memberKnowledge.updateKnowledgeIfValid (newerRetry []).sectionTreeUpdate none 0 =
      .ok (true, retriedKnowledge) := rfl
  have hstay : retriedKnowledge.updateKnowledgeIfValid (newerRetry []).sectionTreeUpdate none 0 =
      .ok (false, retriedKnowledge) := rfl
  have hi : (memberSystem [newerRetry [], newerRetry []]).handlers[1]? =
      some (newerRetry [], .dispatched) := rfl
  have hr : ((memberSystem [newerRetry [], newerRetry []]).run resendEnv
      ([0] ++ 1 :: [0, 0, 0, 0] ++ 1 :: [] ++ 1 :: [1])).handlers[1]? =
        some (newerRetry [], .finished (.ok [.sendMsg (.other 0) (.single ⟨1, 0⟩) ⟨0, retriedKnowledge⟩])) := by
    simp only [List.cons_append, List.nil_append, List.singleton_append, run_cons, run_nil,
      memberSystem, List.map_cons, List.map_nil, step, List.getElem?_cons_zero,
      List.getElem?_cons_succ, List.set_cons_zero, List.set_cons_succ, MyNode.handleAntiEntropyStep,
      AntiEntropyKind.members?, happ, hstay]
    rfl
  exact ⟨hi, by decide, by decide, by decide, hr,
    handler_ok_resends_bounced_msg resendEnv _ hi (by decide) (by decide) (by decide) hr⟩

/-- The re-send as first stated: every handler of a Retry or a Redirect whose bounced
message is a node message and which does not return `RejoinRequired` emits one `SendMsg` of
it to its target when its destination key is not the carried SAP's, and none otherwise. -/
def ResendsUnlessRejoin (env : AeEnv) : Prop :=
  ∀ (sys : System) (schedule : List Nat) (msg : AeMsg) (r : Except Error (List Cmd))
    (b : UsrMsgBytes) (peer : Peer) (id : MsgId) (dst : Dst) (m : NodeMsg),
    sys.Fresh → (msg, .finished r) ∈ (sys.run env schedule).handlers →
    r ≠ .error (.rejoinRequired .removedFromSection) →
    MyNode.bouncedTarget env msg = some (b, peer) →
    env.codec.deserialize b = .ok (.node id dst m) →
    (r.toOption.getD []).countP (Cmd.isSendOf m peer) =
      if dst.sectionKey = msg.sectionTreeUpdate.signedSap.sectionKey then 0 else 1

/-- A Retry whose SAP the node cannot trust: its handler returns `UntrustedUpdate` and
re-sends nothing, whatever node message it bounced. -/
theorem untrusted_retry_resends_nothing :
    ¬ ∃ (env : AeEnv) (b : UsrMsgBytes) (id : MsgId) (dst : Dst) (m : NodeMsg),
      env.codec.deserialize b = .ok (.node id dst m) ∧ ResendsUnlessRejoin env := by
  rintro ⟨env, b, id, dst, m, hd, hstated⟩
  have hrun : ((memberSystem [untrustedRetry dst.sectionKey b]).run env [0, 0]).handlers =
      [(untrustedRetry dst.sectionKey b, .finished (.error .untrustedUpdate))] := by
    simp only [run_cons, run_nil, memberSystem, List.map_cons, List.map_nil, step,
      List.getElem?_cons_zero, List.set_cons_zero, MyNode.handleAntiEntropyStep,
      untrusted_retry_fails]
  have := hstated (memberSystem [untrustedRetry dst.sectionKey b]) [0, 0]
    (untrustedRetry dst.sectionKey b) (.error .untrustedUpdate) b ⟨1, 0⟩ id dst m
    (by simp [Fresh, memberSystem])
    (by rw [hrun]; exact List.mem_singleton_self _) (by simp)
    (MyNode.bouncedTarget_retry env _ rfl) hd
  simp [untrustedRetry, rootSap, Except.toOption] at this

end System


/-! ## The removal check -/

namespace System

/-- In any interleaving, take a handler whose write-locked update reported a change and whose
`update_on_section_change`, given its snapshot, succeeded. Its removal check compares the
snapshot it took when dispatched, the node as `s₀` left it, with the context it read after its
update, the node as `s₂` left it: it returns `RejoinRequired` exactly when the node is a member
in the first and not in the second. Other handlers' updates may land in `s₁` and in `s₂`; with
none there, the two are the knowledge just before and just after its own update. -/
theorem removal_judged_against_snapshot (env : AeEnv) (sys : System) {i : Nat} {msg : AeMsg}
    (hi : sys.handlers[i]? = some (msg, .dispatched)) {s₀ s₁ s₂ rest : List Nat}
    (h₀ : i ∉ s₀) (h₁ : i ∉ s₁) (h₂ : i ∉ s₂) {x nk : NetworkKnowledge} {cmds : List Cmd}
    (hpre : (sys.run env s₀).node.context.networkKnowledge.updateKnowledgeIfValid
      msg.sectionTreeUpdate msg.kind.members? (sys.run env s₀).node.context.name = .ok (true, x))
    (hlock : (sys.run env (s₀ ++ i :: s₁)).node.context.networkKnowledge.updateKnowledgeIfValid
      msg.sectionTreeUpdate msg.kind.members? (sys.run env s₀).node.context.name = .ok (true, nk))
    (hch : env.updateOnSectionChange ⟨(sys.run env (s₀ ++ i :: s₁)).node.context.name, nk⟩
      (sys.run env s₀).node.context = .ok cmds)
    {r : Except Error (List Cmd)}
    (hr : (sys.run env (s₀ ++ i :: s₁ ++ i :: s₂ ++ i :: rest)).handlers[i]? = some (msg, .finished r)) :
    r = .error (.rejoinRequired .removedFromSection) ↔
      (sys.run env s₀).node.context.networkKnowledge.isMember
          (sys.run env (s₀ ++ i :: s₁ ++ i :: s₂)).node.context.name ∧
        ¬ (sys.run env (s₀ ++ i :: s₁ ++ i :: s₂)).node.context.networkKnowledge.isMember
          (sys.run env (s₀ ++ i :: s₁ ++ i :: s₂)).node.context.name := by
  have hst := MyNode.handleAntiEntropyStep_locked env msg hpre hlock hch
  rcases run_handler_result env sys hi h₀ h₁ h₂ hr with ⟨e, he, -⟩ | ⟨start, g, u, he, rfl⟩
  · simp [hst] at he
  · simp only [hst, Stage.updated.injEq] at he
    obtain ⟨rfl, rfl, rfl⟩ := he
    by_cases h : (sys.run env s₀).node.context.networkKnowledge.isMember
          (sys.run env (s₀ ++ i :: s₁ ++ i :: s₂)).node.context.name ∧
        ¬ (sys.run env (s₀ ++ i :: s₁ ++ i :: s₂)).node.context.networkKnowledge.isMember
          (sys.run env (s₀ ++ i :: s₁ ++ i :: s₂)).node.context.name
    · rw [MyNode.finalResult, if_pos ⟨rfl, h⟩]
      exact iff_of_true rfl h
    · rw [MyNode.finalResult, if_neg fun h' => h h'.2]
      exact iff_of_false (MyNode.resendBouncedMsg_ne_rejoin env msg) h

/-- The Update to key `2` is dispatched on member node `0` together with the Update that
removes it; the removal runs first, and the second handler, whose snapshot predates it,
applies its newer SAP and reports the removal, judged against that snapshot. -/
theorem rejoin_judged_against_old_snapshot :
    racingSystem.handlers[1]? = some (newerUpdate, .dispatched) ∧
      1 ∉ ([] : List Nat) ∧ 1 ∉ [0, 0, 0, 0, 0] ∧ 1 ∉ ([] : List Nat) ∧
      (racingSystem.run quietEnv []).node.context.networkKnowledge.updateKnowledgeIfValid
          newerUpdate.sectionTreeUpdate newerUpdate.kind.members?
          (racingSystem.run quietEnv []).node.context.name = .ok (true, retriedKnowledge) ∧
      (racingSystem.run quietEnv ([] ++ 1 :: [0, 0, 0, 0, 0])).node.context.networkKnowledge.updateKnowledgeIfValid
          newerUpdate.sectionTreeUpdate newerUpdate.kind.members?
          (racingSystem.run quietEnv []).node.context.name = .ok (true, newerKnowledge) ∧
      quietEnv.updateOnSectionChange
          ⟨(racingSystem.run quietEnv ([] ++ 1 :: [0, 0, 0, 0, 0])).node.context.name, newerKnowledge⟩
          (racingSystem.run quietEnv []).node.context = .ok [] ∧
      (racingSystem.run quietEnv ([] ++ 1 :: [0, 0, 0, 0, 0] ++ 1 :: [] ++ 1 :: [1, 1])).handlers[1]? =
        some (newerUpdate, .finished (.error (.rejoinRequired .removedFromSection))) ∧
      (Except.error (.rejoinRequired .removedFromSection) = (.error (.rejoinRequired .removedFromSection) :
          Except Error (List Cmd)) ↔
        (racingSystem.run quietEnv []).node.context.networkKnowledge.isMember
            (racingSystem.run quietEnv ([] ++ 1 :: [0, 0, 0, 0, 0] ++ 1 :: [])).node.context.name ∧
          ¬ (racingSystem.run quietEnv ([] ++ 1 :: [0, 0, 0, 0, 0] ++ 1 :: [])).node.context.networkKnowledge.isMember
            (racingSystem.run quietEnv ([] ++ 1 :: [0, 0, 0, 0, 0] ++ 1 :: [])).node.context.name) := by
  have hA : (racingSystem.run quietEnv ([] ++ 1 :: [0, 0, 0, 0, 0])).node.context =
      ⟨0, removedKnowledge⟩ := by
    simp only [List.nil_append, run_cons, run_nil, racingSystem, memberSystem, List.map_cons,
      List.map_nil, step, List.getElem?_cons_zero, List.getElem?_cons_succ, List.set_cons_zero,
      List.set_cons_succ, MyNode.handleAntiEntropyStep, removal_applies, quietEnv, member_isMember,
      removed_isMember]
    rfl
  have hlock : (racingSystem.run quietEnv ([] ++ 1 :: [0, 0, 0, 0, 0])).node.context.networkKnowledge.updateKnowledgeIfValid
      newerUpdate.sectionTreeUpdate newerUpdate.kind.members? (racingSystem.run quietEnv []).node.context.name =
        .ok (true, newerKnowledge) := by
    rw [hA]
    exact newer_applies_after_removal
  have hr : (racingSystem.run quietEnv ([] ++ 1 :: [0, 0, 0, 0, 0] ++ 1 :: [] ++ 1 :: [1, 1])).handlers[1]? =
      some (newerUpdate, .finished (.error (.rejoinRequired .removedFromSection))) := by
    simp only [List.nil_append, List.cons_append, List.singleton_append, run_cons, run_nil,
      racingSystem, memberSystem, List.map_cons, List.map_nil, step, List.getElem?_cons_zero, List.getElem?_cons_succ, List.set_cons_zero,
      List.set_cons_succ, MyNode.handleAntiEntropyStep, removal_applies, newer_applies,
      newer_applies_after_removal, quietEnv, member_isMember, removed_isMember, newer_isMember]
    rfl
  exact ⟨rfl, by decide, by decide, by decide, newer_applies, hlock, rfl, hr,
    removal_judged_against_snapshot quietEnv racingSystem rfl (by decide) (by decide) (by decide)
      newer_applies hlock rfl hr⟩

/-- The removal check as first stated: whenever handler `i`, in a state some schedule
reaches from dispatch, takes its write-locked update, it returns `RejoinRequired` once
finished exactly when the node was a member just before that update and is not just after
it. -/
def JudgedAgainstPreUpdate (env : AeEnv) : Prop :=
  ∀ (sys : System) (schedule : List Nat) (i : Nat) (msg : AeMsg) (start : NodeContext)
    (x : NetworkKnowledge) (rest : List Nat) (r : Except Error (List Cmd)),
    sys.Fresh →
    (sys.run env schedule).handlers[i]? = some (msg, .started start) →
    start.networkKnowledge.updateKnowledgeIfValid msg.sectionTreeUpdate msg.kind.members?
      start.name = .ok (true, x) →
    (((sys.run env schedule).step env i).run env rest).handlers[i]? = some (msg, .finished r) →
    (r = .error (.rejoinRequired .removedFromSection) ↔
      (sys.run env schedule).node.context.networkKnowledge.isMember start.name ∧
        ¬ ((sys.run env schedule).step env i).node.context.networkKnowledge.isMember start.name)

/-- One handler's update removes node `0`. A second handler, dispatched before it, then
applies a newer SAP to a node that is no longer a member, and still returns
`RejoinRequired`: its snapshot predates the removal. -/
theorem rejoin_reported_for_earlier_removal :
    ¬ ∃ env : AeEnv, (∀ a b, ∃ cmds, env.updateOnSectionChange a b = .ok cmds) ∧
      JudgedAgainstPreUpdate env := by
  rintro ⟨env, hch, hstated⟩
  obtain ⟨cmdsA, hA⟩ := hch ⟨0, removedKnowledge⟩ ⟨0, memberKnowledge⟩
  obtain ⟨cmdsB, hB⟩ := hch ⟨0, newerKnowledge⟩ ⟨0, memberKnowledge⟩
  have hx := newer_applies
  have hpre : (memberSystem [removalUpdate, newerUpdate]).run env [1, 0, 0, 0, 0, 0] =
      ⟨⟨⟨0, removedKnowledge⟩, removedKnowledge.sectionTree, removedKnowledge.members⟩,
        [(removalUpdate, .finished (.error (.rejoinRequired .removedFromSection))),
          (newerUpdate, .started ⟨0, memberKnowledge⟩)]⟩ := by
    simp only [run_cons, run_nil, memberSystem, List.map_cons, List.map_nil, step,
      List.getElem?_cons_zero, List.getElem?_cons_succ, List.set_cons_zero, List.set_cons_succ,
      MyNode.handleAntiEntropyStep, removal_applies, hA, member_isMember, removed_isMember]
    rfl
  have hlock : ((memberSystem [removalUpdate, newerUpdate]).run env [1, 0, 0, 0, 0, 0]).step env 1 =
      ⟨⟨⟨0, newerKnowledge⟩, removedKnowledge.sectionTree, removedKnowledge.members⟩,
        [(removalUpdate, .finished (.error (.rejoinRequired .removedFromSection))),
          (newerUpdate, .updated ⟨0, memberKnowledge⟩ cmdsB true)]⟩ := by
    rw [hpre]
    simp only [step, List.getElem?_cons_zero, List.getElem?_cons_succ, List.set_cons_zero,
      List.set_cons_succ, MyNode.handleAntiEntropyStep, hx, newer_applies_after_removal, hB]
  have hend : (((memberSystem [removalUpdate, newerUpdate]).run env [1, 0, 0, 0, 0, 0]).step env 1
      |>.run env [1, 1, 1]).handlers[1]? =
        some (newerUpdate, .finished (.error (.rejoinRequired .removedFromSection))) := by
    rw [hlock]
    simp only [run_cons, run_nil, step, List.getElem?_cons_zero, List.getElem?_cons_succ,
      List.set_cons_zero, List.set_cons_succ, MyNode.handleAntiEntropyStep, member_isMember,
      newer_isMember]
    rfl
  have := hstated _ [1, 0, 0, 0, 0, 0] 1 newerUpdate ⟨0, memberKnowledge⟩ retriedKnowledge [1, 1, 1] _
    (by simp [Fresh, memberSystem]) (by rw [hpre]; rfl) hx hend
  rw [hlock, hpre] at this
  exact absurd (this.1 rfl).1 (by decide)

end System

/-! ## Persisting the knowledge -/

/-- The node's persisted state agrees with its memory: the last section tree given to
`write_section_tree` and the last members given to `set_comm_targets` are its knowledge's. -/
def Persisted (node : SharedNode) : Prop :=
  node.sectionTreeFile = node.context.networkKnowledge.sectionTree ∧
    node.commTargets = node.context.networkKnowledge.members

/-- The context a handler read after its update, while it has yet to write it out. -/
def Stage.latest? : Stage → Option NodeContext
  | .read _ _ true latest => some latest
  | .targetsSet _ _ latest => some latest
  | _ => none

/-- A handler whose update reported a change and that has yet to set the comms targets. -/
def Stage.owesTargets : Stage → Bool
  | .updated _ _ true | .read _ _ true _ => true
  | _ => false

/-- A handler whose update reported a change and that has yet to write the section tree. -/
def Stage.owesFile : Stage → Bool
  | .updated _ _ true | .read _ _ true _ | .targetsSet .. => true
  | _ => false

theorem exists_flag_set {hs : List (AeMsg × Stage)} {i : Nat} {msg : AeMsg} {st st' : Stage}
    (hi : hs[i]? = some (msg, st)) (f : Stage → Bool) (hf : f st → f st')
    (h : ∃ (j : Nat) (p : AeMsg × Stage), hs[j]? = some p ∧ f p.2) :
    ∃ (j : Nat) (p : AeMsg × Stage), (hs.set i (msg, st'))[j]? = some p ∧ f p.2 := by
  obtain ⟨j, p, hj, hp⟩ := h
  by_cases hji : i = j
  · subst hji
    obtain rfl := Option.some.inj (hj.symm.trans hi)
    exact ⟨i, _, List.getElem?_set_self (List.getElem?_eq_some_iff.1 hi).1, hf hp⟩
  · exact ⟨j, p, by rw [List.getElem?_set_ne hji, hj], hp⟩

namespace System

variable (env : AeEnv)

/-- All handlers have finished. -/
def Finished (sys : System) : Prop := ∀ p ∈ sys.handlers, ∃ r, p.2 = .finished r

/-- Step `i` is orderly: when it changes the node's knowledge, no other handler is between
its read of the node and its writes, and the step does not fail. -/
def OrderlyStep (sys : System) (i : Nat) : Prop :=
  (sys.step env i).node.context.networkKnowledge ≠ sys.node.context.networkKnowledge →
    (∀ (j : Nat) (p : AeMsg × Stage), j ≠ i → sys.handlers[j]? = some p → p.2.latest? = none) ∧
    ∀ msg e, (sys.step env i).handlers[i]? ≠ some (msg, .finished (.error e))

/-- Every step of the schedule is orderly. -/
def OrderlyRun : System → List Nat → Prop
  | _, [] => True
  | sys, i :: is => OrderlyStep env sys i ∧ OrderlyRun (sys.step env i) is

/-- What the handlers in flight owe the persisted state: a context read after an update is
the current one until it is written out, and the comms targets and the section tree on disk
are the knowledge's unless some handler has yet to write them. -/
structure PersistInv (sys : System) : Prop where
  latest_current : ∀ (j : Nat) (p : AeMsg × Stage) (latest : NodeContext),
    sys.handlers[j]? = some p → p.2.latest? = some latest →
    latest.networkKnowledge = sys.node.context.networkKnowledge
  targets : sys.node.commTargets = sys.node.context.networkKnowledge.members ∨
    ∃ (j : Nat) (p : AeMsg × Stage), sys.handlers[j]? = some p ∧ p.2.owesTargets
  file : sys.node.sectionTreeFile = sys.node.context.networkKnowledge.sectionTree ∨
    ∃ (j : Nat) (p : AeMsg × Stage), sys.handlers[j]? = some p ∧ p.2.owesFile

theorem PersistInv.init {sys : System} (hf : sys.Fresh) (hp : Persisted sys.node) :
    sys.PersistInv where
  latest_current j p latest hj hl := by
    rw [hf p (List.getElem?_mem hj)] at hl
    cases hl
  targets := .inl hp.2
  file := .inl hp.1

/-- A step that keeps the knowledge keeps the invariant when the handler's new stage owes
what its old one did and holds only the current context, and each write it makes writes the
knowledge's. -/
theorem PersistInv.frame {sys : System} (h : sys.PersistInv) {i : Nat} {msg : AeMsg}
    {st st' : Stage} (hi : sys.handlers[i]? = some (msg, st)) {node : SharedNode}
    (hctx : node.context = sys.node.context)
    (hlatest : ∀ l, st'.latest? = some l →
      l.networkKnowledge = sys.node.context.networkKnowledge)
    (htargets : node.commTargets = sys.node.context.networkKnowledge.members ∨
      node.commTargets = sys.node.commTargets ∧ (st.owesTargets → st'.owesTargets))
    (hfile : node.sectionTreeFile = sys.node.context.networkKnowledge.sectionTree ∨
      node.sectionTreeFile = sys.node.sectionTreeFile ∧ (st.owesFile → st'.owesFile)) :
    PersistInv ⟨node, sys.handlers.set i (msg, st')⟩ where
  latest_current j p l hj hl := by
    rw [List.getElem?_set] at hj
    simp only [hctx]
    split_ifs at hj with hji
    · obtain rfl := Option.some.inj hj
      exact hlatest l hl
    · exact h.latest_current j p l hj hl
  targets := by
    simp only [hctx]
    rcases htargets with h' | ⟨h', hown⟩
    · exact .inl h'
    · rw [h']
      exact h.targets.imp_right (exists_flag_set hi _ hown)
  file := by
    simp only [hctx]
    rcases hfile with h' | ⟨h', hown⟩
    · exact .inl h'
    · rw [h']
      exact h.file.imp_right (exists_flag_set hi _ hown)

/-- A step that leaves the node as it is keeps the invariant when the handler's new stage
owes what its old one did and holds only the current context. -/
theorem PersistInv.frame_node {sys : System} (h : sys.PersistInv) {i : Nat} {msg : AeMsg}
    {st st' : Stage} (hi : sys.handlers[i]? = some (msg, st))
    (hlatest : ∀ l, st'.latest? = some l →
      l.networkKnowledge = sys.node.context.networkKnowledge)
    (htargets : st.owesTargets → st'.owesTargets) (hfile : st.owesFile → st'.owesFile) :
    PersistInv ⟨sys.node, sys.handlers.set i (msg, st')⟩ :=
  h.frame hi rfl hlatest (.inr ⟨rfl, htargets⟩) (.inr ⟨rfl, hfile⟩)

/-- A write-locked update that changes the knowledge, in an orderly step, leaves the
handler owing both writes while no other handler holds a context. -/
theorem PersistInv.locked {sys : System} {i : Nat} {msg : AeMsg} {st : Stage}
    (hi : sys.handlers[i]? = some (msg, st)) {start : NodeContext} {cmds : List Cmd}
    {node : SharedNode}
    (hothers : ∀ (j : Nat) (p : AeMsg × Stage), j ≠ i → sys.handlers[j]? = some p → p.2.latest? = none) :
    PersistInv ⟨node, sys.handlers.set i (msg, .updated start cmds true)⟩ where
  latest_current j p l hj hl := by
    rw [List.getElem?_set] at hj
    split_ifs at hj with hji
    · obtain rfl := Option.some.inj hj
      cases hl
    · rw [hothers j p (Ne.symm hji) hj] at hl
      cases hl
  targets := .inr ⟨i, _, List.getElem?_set_self (List.getElem?_eq_some_iff.1 hi).1, rfl⟩
  file := .inr ⟨i, _, List.getElem?_set_self (List.getElem?_eq_some_iff.1 hi).1, rfl⟩

/-- One step keeps the invariant when it is orderly. -/
theorem PersistInv.step {sys : System} (h : sys.PersistInv) {i : Nat} (ho : OrderlyStep env sys i) :
    (sys.step env i).PersistInv := by
  cases hi : sys.handlers[i]? with
  | none => simpa [System.step, hi] using h
  | some q =>
    obtain ⟨msg, st⟩ := q
    rw [OrderlyStep, step_of_getElem? env hi] at ho
    rw [step_of_getElem? env hi]
    cases st with
    | started start =>
      rcases MyNode.handleAntiEntropyStep_started env msg sys.node start with
        ⟨h1, h2⟩ | ⟨x, u, nk, -, hlock, h1, h2⟩
      · rw [h1]
        refine h.frame_node hi ?_ (by simp [Stage.owesTargets]) (by simp [Stage.owesFile])
        rcases h2 with ⟨e, h2⟩ | h2 <;> simp [h2, Stage.latest?]
      · by_cases hnk : nk = sys.node.context.networkKnowledge
        · have hkeep : (MyNode.handleAntiEntropyStep env msg sys.node (.started start)).1 =
              sys.node := by rw [h1, hnk]
          rw [hkeep]
          refine h.frame_node hi ?_ (by simp [Stage.owesTargets]) (by simp [Stage.owesFile])
          rcases h2 with ⟨e, h2⟩ | ⟨cmds, h2⟩ <;> simp [h2, Stage.latest?]
        · obtain ⟨hothers, hok⟩ := ho (by rw [h1]; exact hnk)
          rcases h2 with ⟨e, h2⟩ | ⟨cmds, h2⟩
          · refine absurd ?_ (hok msg e)
            rw [h2, List.getElem?_set_self (List.getElem?_eq_some_iff.1 hi).1]
          · cases u
            · exact absurd (NetworkKnowledge.updateKnowledgeIfValid_false hlock) hnk
            · rw [h2]
              exact PersistInv.locked hi hothers
    | updated start cmds u =>
      refine h.frame_node hi ?_ (by cases u <;> simp [Stage.owesTargets])
        (by cases u <;> simp [Stage.owesFile])
      cases u <;> simp [Stage.latest?]
    | read start cmds u latest =>
      cases u
      · exact h.frame_node hi (by simp [Stage.latest?]) (by simp [Stage.owesTargets])
          (by simp [Stage.owesFile])
      · have hl := h.latest_current i _ latest hi rfl
        exact h.frame hi rfl (by simp [Stage.latest?, hl]) (.inl (by simp [hl]))
          (.inr ⟨rfl, by simp [Stage.owesFile]⟩)
    | targetsSet start cmds latest =>
      have hl := h.latest_current i _ latest hi rfl
      rw [MyNode.handleAntiEntropyStep_targetsSet]
      exact h.frame hi rfl (by simp [Stage.latest?]) (.inr ⟨rfl, by simp [Stage.owesTargets]⟩)
        (.inl (by simp [hl]))
    | _ =>
      exact h.frame_node hi (by simp [Stage.latest?]) (by simp [Stage.owesTargets])
        (by simp [Stage.owesFile])

theorem PersistInv.run {sys : System} (h : sys.PersistInv) (schedule : List Nat)
    (ho : OrderlyRun env sys schedule) : (sys.run env schedule).PersistInv := by
  induction schedule generalizing sys with
  | nil => exact h
  | cons i is ih => exact ih (h.step env ho.1) ho.2

/-- Once every handler has finished, none owes a write. -/
theorem PersistInv.persisted {sys : System} (h : sys.PersistInv) (hdone : sys.Finished) :
    Persisted sys.node := by
  have hnone : ∀ (j : Nat) (p : AeMsg × Stage), sys.handlers[j]? = some p →
      p.2.owesTargets = false ∧ p.2.owesFile = false := fun j p hj => by
    obtain ⟨r, hr⟩ := hdone p (List.getElem?_mem hj)
    simp [hr, Stage.owesTargets, Stage.owesFile]
  refine ⟨h.file.resolve_right ?_, h.targets.resolve_right ?_⟩ <;>
    rintro ⟨j, p, hj, hp⟩ <;> simp [hnone j p hj] at hp

/-- In any interleaving in which no update changes the knowledge while another handler is
between its read of the node and its writes, and no handler fails right after changing the
knowledge, the section tree on disk and the comms targets are the knowledge's once every
handler has finished. -/
theorem persisted_after_orderly_run (sys : System) (hf : sys.Fresh) (hp : Persisted sys.node)
    (schedule : List Nat) (ho : OrderlyRun env sys schedule)
    (hdone : (sys.run env schedule).Finished) : Persisted (sys.run env schedule).node :=
  ((PersistInv.init hf hp).run env schedule ho).persisted hdone

/-- What holds of every handler of a pair but the `k`-th holds of each of them but that one. -/
theorem forall_ne_getElem?_pair {a b : AeMsg × Stage} {P : AeMsg × Stage → Prop} {k : Nat} :
    (∀ (j : Nat) (p : AeMsg × Stage), j ≠ k → [a, b][j]? = some p → P p) ↔
      (0 ≠ k → P a) ∧ (1 ≠ k → P b) := by
  refine ⟨fun h => ⟨fun hk => h 0 a hk rfl, fun hk => h 1 b hk rfl⟩, fun ⟨ha, hb⟩ j p hj hget => ?_⟩
  rcases j with _ | _ | j <;> simp at hget <;> subst hget
  · exact ha hj
  · exact hb hj

/-- The two Updates race on node `0`: the newer one's handler takes its snapshot, the removal
runs to its end, and then the newer update runs; no update lands while the other handler holds
a context to write out, and the node's persisted state ends as its knowledge. -/
theorem persisted_after_racing_updates :
    racingSystem.Fresh ∧ Persisted racingSystem.node ∧
      OrderlyRun quietEnv racingSystem [0, 1, 0, 0, 0, 0, 1, 1, 1, 1] ∧
      (racingSystem.run quietEnv [0, 1, 0, 0, 0, 0, 1, 1, 1, 1]).Finished ∧
      Persisted (racingSystem.run quietEnv [0, 1, 0, 0, 0, 0, 1, 1, 1, 1]).node := by
  have hf : racingSystem.Fresh := by simp [Fresh, racingSystem, memberSystem]
  have hp : Persisted racingSystem.node := ⟨rfl, rfl⟩
  have ho : OrderlyRun quietEnv racingSystem [0, 1, 0, 0, 0, 0, 1, 1, 1, 1] := by
    simp only [OrderlyRun, OrderlyStep, racingSystem, memberSystem, List.map_cons, List.map_nil,
      step, List.getElem?_cons_zero, List.getElem?_cons_succ, List.set_cons_zero,
      List.set_cons_succ, MyNode.handleAntiEntropyStep, removal_applies, newer_applies,
      newer_applies_after_removal, quietEnv, member_isMember, removed_isMember, newer_isMember,
      forall_ne_getElem?_pair, Bool.true_and, Bool.not_false, Bool.not_true, Bool.and_true,
      Bool.and_false, Bool.false_eq_true, if_true, if_false]
    simp [Stage.latest?]
  have hdone : (racingSystem.run quietEnv [0, 1, 0, 0, 0, 0, 1, 1, 1, 1]).Finished := by
    simp only [Finished, run_cons, run_nil, racingSystem, memberSystem, List.map_cons,
      List.map_nil, step, List.getElem?_cons_zero, List.getElem?_cons_succ, List.set_cons_zero,
      List.set_cons_succ, MyNode.handleAntiEntropyStep, removal_applies, newer_applies,
      newer_applies_after_removal, quietEnv, member_isMember, removed_isMember, newer_isMember,
      Bool.true_and, Bool.not_false, Bool.not_true, Bool.and_true, Bool.and_false,
      Bool.false_eq_true, if_true, if_false]
    simp
  exact ⟨hf, hp, ho, hdone, persisted_after_orderly_run quietEnv _ hf hp _ ho hdone⟩

/-- The persisted state as first stated: from any start where it agrees with the memory, it
agrees with it again once every handler has finished, whatever the interleaving. -/
def PersistsFinalKnowledge (env : AeEnv) : Prop :=
  ∀ (sys : System) (schedule : List Nat), sys.Fresh → Persisted sys.node →
    (sys.run env schedule).Finished → Persisted (sys.run env schedule).node

/-- The removal handler reads the node after its update; the newer update then lands and its
handler writes everything out; last, the removal handler writes the section tree it read,
which is stale. -/
theorem stale_section_tree_written_last :
    ¬ ∃ env : AeEnv, (∀ a b, ∃ cmds, env.updateOnSectionChange a b = .ok cmds) ∧
      PersistsFinalKnowledge env := by
  rintro ⟨env, hch, hstated⟩
  obtain ⟨cmdsA, hA⟩ := hch ⟨0, removedKnowledge⟩ ⟨0, memberKnowledge⟩
  obtain ⟨cmdsB, hB⟩ := hch ⟨0, newerKnowledge⟩ ⟨0, removedKnowledge⟩
  have hrun : (memberSystem [removalUpdate, newerUpdate]).run env
      [0, 0, 0, 1, 1, 1, 1, 1, 0, 0] =
        ⟨⟨⟨0, newerKnowledge⟩, removedKnowledge.sectionTree, removedKnowledge.members⟩,
          [(removalUpdate, .finished (.error (.rejoinRequired .removedFromSection))),
            (newerUpdate, .finished (.ok (cmdsB ++
              [env.askForAnyNewDataFromWholeSection ⟨0, newerKnowledge⟩])))]⟩ := by
    simp only [run_cons, run_nil, memberSystem, List.map_cons, List.map_nil, step,
      List.getElem?_cons_zero, List.getElem?_cons_succ, List.set_cons_zero, List.set_cons_succ,
      MyNode.handleAntiEntropyStep, removal_applies, newer_applies_after_removal, hA, hB,
      member_isMember, removed_isMember, newer_isMember, resend_update newerUpdate rfl,
      Bool.true_and, Bool.false_and, Bool.not_false, Bool.not_true, Bool.and_true,
      Bool.and_false, Bool.false_eq_true, if_true, if_false]
  have := hstated (memberSystem [removalUpdate, newerUpdate]) [0, 0, 0, 1, 1, 1, 1, 1, 0, 0]
    (by simp [Fresh, memberSystem]) ⟨rfl, rfl⟩ (by
      rw [hrun]
      simp [Finished])
  rw [hrun] at this
  have hstale : removedKnowledge.sectionTree ≠ newerKnowledge.sectionTree := by decide
  exact hstale this.1

end System

end SafeNetwork
