import SafeNetwork.Entropy

/-!
# Handling an anti-entropy response

`handle_anti_entropy_msg` as the atomic steps it takes on the shared node
(`MyNode.handleAntiEntropyStep`): it snapshots the node's context when dispatched,
checks the update on that snapshot, applies it under the write lock together with
`update_on_section_change`, reads the node's context again, hands the new members to the
comms layer and the section tree to disk as two steps of their own, checks whether we were
removed, and decides the re-send (`resendBouncedMsg`). `handleAntiEntropyMsg` runs the
steps with nothing in between.

The Redirect target is the elder that `max_by` picks under `cmp_distance`
(`chosenDstElder`): the one whose name is the farthest from the target, not the closest
(`chosenDstElder_spec`).

Run alone with `update_on_section_change` succeeding, a handler whose re-send is due returns
the commands it gathered with the re-send last, unless it does not trust the update or finds
the node removed from its section (`handleAntiEntropyMsg_resend`).
-/

namespace SafeNetwork

/-! ## The Redirect target -/

/-- `Iterator::max_by`: the last of the greatest elements under `cmp`. -/
def maxBy {α : Type} (cmp : α → α → Ordering) : List α → Option α
  | [] => none
  | x :: xs => some (xs.foldl (fun acc y => if cmp acc y = .gt then acc else y) x)

theorem foldl_maxBy_spec {α : Type} (f : α → Nat) (xs : List α) (acc : α) :
    let r := xs.foldl (fun acc y => if compare (f acc) (f y) = .gt then acc else y) acc
    (r = acc ∨ r ∈ xs) ∧ f acc ≤ f r ∧ ∀ y ∈ xs, f y ≤ f r := by
  induction xs generalizing acc with
  | nil => simp
  | cons x xs ih =>
    simp only [List.foldl_cons]
    by_cases h : compare (f acc) (f x) = .gt
    · rw [if_pos h]
      obtain ⟨hr, hle, hall⟩ := ih acc
      have := Nat.compare_eq_gt.1 h
      refine ⟨hr.imp_right (List.mem_cons_of_mem x), hle, ?_⟩
      simp only [List.mem_cons, forall_eq_or_imp]
      exact ⟨by omega, hall⟩
    · rw [if_neg h]
      obtain ⟨hr, hle, hall⟩ := ih x
      have := Nat.compare_eq_gt.not.1 h
      refine ⟨.inr (List.mem_cons.2 hr), by omega, ?_⟩
      simp only [List.mem_cons, forall_eq_or_imp]
      exact ⟨hle, hall⟩

/-- `max_by` under a comparison of keys picks an element of greatest key. -/
theorem maxBy_compare_spec {α : Type} (f : α → Nat) {l : List α} {m : α}
    (h : maxBy (fun a b => compare (f a) (f b)) l = some m) : m ∈ l ∧ ∀ y ∈ l, f y ≤ f m := by
  cases l with
  | nil => cases h
  | cons x xs =>
    simp only [maxBy, Option.some.injEq] at h
    obtain ⟨hr, hle, hall⟩ := foldl_maxBy_spec f xs x
    rw [h] at hr hle hall
    refine ⟨List.mem_cons.2 hr, ?_⟩
    simp only [List.mem_cons, forall_eq_or_imp]
    exact ⟨hle, hall⟩

theorem XorName.distance_xor (t a : XorName) : t.distance (t ^^^ a) = a.toNat := by
  rw [XorName.distance, BitVec.xor_comm t a, BitVec.xor_assoc, BitVec.xor_self, BitVec.xor_zero]

/-- The elder a Redirect re-sends to: `sap.elders().max_by(|lhs, rhs|
target_name.cmp_distance(&lhs.name(), &rhs.name()))`, with `target_name` the name of the
SAP's key. -/
def chosenDstElder (keyName : BlsPublicKey → XorName) (sap : SectionAuthorityProvider) : Option Peer :=
  maxBy (fun lhs rhs => (keyName sap.sectionKey).cmpDistance lhs.name rhs.name) sap.elders

variable {keyName : BlsPublicKey → XorName}

/-- The elder a Redirect re-sends to is one whose name is the farthest from the target. -/
theorem chosenDstElder_spec {sap : SectionAuthorityProvider} {e : Peer}
    (h : chosenDstElder keyName sap = some e) :
    e ∈ sap.elders ∧ ∀ e' ∈ sap.elders,
      (keyName sap.sectionKey).distance e'.name ≤ (keyName sap.sectionKey).distance e.name := by
  unfold chosenDstElder XorName.cmpDistance at h
  exact maxBy_compare_spec (fun p : Peer => (keyName sap.sectionKey).distance p.name) h

/-! ## The handler's steps -/

/-- The collaborators of `handle_anti_entropy_msg` whose code is not in this repository's
sources. -/
structure AeEnv where
  codec : WireCodec
  /-- `XorName::from(PublicKey::Bls(key))`. -/
  keyName : BlsPublicKey → XorName
  /-- `update_on_section_change(&old)`, run on the node as updated. -/
  updateOnSectionChange : NodeContext → NodeContext → Except Error (List Cmd)
  /-- `ask_for_any_new_data_from_whole_section`. -/
  askForAnyNewDataFromWholeSection : NodeContext → Cmd

/-- An anti-entropy message as its handler receives it. -/
structure AeMsg where
  sectionTreeUpdate : SectionTreeUpdate
  kind : AntiEntropyKind
  sender : Peer

/-- The member states an AE Update carries. -/
def AntiEntropyKind.members? : AntiEntropyKind → Option (List NodeState)
  | .update members => some members
  | _ => none

/-- The node behind its lock (`Arc<RwLock<MyNode>>`), with what it last gave
`write_section_tree` and `set_comm_targets`. -/
structure SharedNode where
  context : NodeContext
  sectionTreeFile : List SectionTreeUpdate
  commTargets : List NodeState

/-- Where a handler is between two atomic steps, with the locals it holds. -/
inductive Stage where
  | dispatched
  | started (start : NodeContext)
  | updated (start : NodeContext) (cmds : List Cmd) (updated : Bool)
  | read (start : NodeContext) (cmds : List Cmd) (updated : Bool) (latest : NodeContext)
  | targetsSet (start : NodeContext) (cmds : List Cmd) (latest : NodeContext)
  | finished (result : Except Error (List Cmd))

/-- The handler's own re-send commands, or none of them: whether a command is a `SendMsg` of
`m` to `peer` alone. -/
def Cmd.isSendOf (m : NodeMsg) (peer : Peer) : Cmd → Bool
  | .sendMsg m' (.single p) _ => m' == m && p == peer
  | _ => false

/-- How many steps a handler has left at most. -/
def Stage.left : Stage → Nat
  | .dispatched => 5
  | .started _ => 4
  | .updated .. => 3
  | .read .. => 2
  | .targetsSet .. => 1
  | .finished _ => 0

namespace MyNode

variable (env : AeEnv) (msg : AeMsg)

/-- The bounced message of a Retry or a Redirect and whom to re-send it to: the sender of
a Retry, the chosen elder of a Redirect's SAP; nothing for an Update or for a SAP with no
elders. -/
def bouncedTarget : Option (UsrMsgBytes × Peer) :=
  match msg.kind with
  | .update _ => none
  | .retry bouncedMsg => some (bouncedMsg, msg.sender)
  | .redirect bouncedMsg =>
    (chosenDstElder env.keyName msg.sectionTreeUpdate.signedSap).map (bouncedMsg, ·)

/-- The end of `handle_anti_entropy_msg`: the bounced message re-sent to its target, unless
it is not a node message or its destination already names the SAP's key. -/
def resendBouncedMsg (latest : NodeContext) (cmds : List Cmd) : Except Error (List Cmd) :=
  match bouncedTarget env msg with
  | none => .ok cmds
  | some (bouncedMsg, responsePeer) =>
    match env.codec.deserialize bouncedMsg with
    | .error e => .error (.messaging e)
    | .ok (.node _ dst msgToResend) =>
      if dst.sectionKey = msg.sectionTreeUpdate.signedSap.sectionKey then .ok cmds
      else .ok (cmds ++ [.sendMsg msgToResend (.single responsePeer) latest])
    | .ok .other => .ok cmds

/-- One atomic step of `handle_anti_entropy_msg` on the shared node. -/
def handleAntiEntropyStep (node : SharedNode) : Stage → SharedNode × Stage
  | .dispatched => (node, .started node.context)
  | .started start =>
    match start.networkKnowledge.updateKnowledgeIfValid msg.sectionTreeUpdate msg.kind.members?
        start.name with
    | .error e => (node, .finished (.error e))
    | .ok (false, _) => (node, .updated start [] false)
    | .ok (true, _) =>
      match node.context.networkKnowledge.updateKnowledgeIfValid msg.sectionTreeUpdate
          msg.kind.members? start.name with
      | .error e => (node, .finished (.error e))
      | .ok (updated, nk) =>
        let node := { node with context := { node.context with networkKnowledge := nk } }
        match env.updateOnSectionChange node.context start with
        | .error e => (node, .finished (.error e))
        | .ok cmds => (node, .updated start cmds updated)
  | .updated start cmds updated => (node, .read start cmds updated node.context)
  | .read start cmds true latest =>
    ({ node with commTargets := latest.networkKnowledge.members }, .targetsSet start cmds latest)
  | .read _ cmds false latest => (node, .finished (resendBouncedMsg env msg latest cmds))
  | .targetsSet start cmds latest =>
    let node := { node with sectionTreeFile := latest.networkKnowledge.sectionTree }
    let cmds := cmds ++ [env.askForAnyNewDataFromWholeSection latest]
    if start.networkKnowledge.isMember latest.name && !latest.networkKnowledge.isMember latest.name then
      (node, .finished (.error (.rejoinRequired .removedFromSection)))
    else (node, .finished (resendBouncedMsg env msg latest cmds))
  | .finished r => (node, .finished r)

@[simp] theorem handleAntiEntropyStep_dispatched (node : SharedNode) :
    handleAntiEntropyStep env msg node .dispatched = (node, .started node.context) := rfl

/-- The write-locked step: the update applied to the node's knowledge, and
`update_on_section_change` given the handler's snapshot `start`. -/
theorem handleAntiEntropyStep_locked {node : SharedNode} {start : NodeContext}
    {x nk : NetworkKnowledge} {u : Bool} {cmds : List Cmd}
    (hpre : start.networkKnowledge.updateKnowledgeIfValid msg.sectionTreeUpdate msg.kind.members?
      start.name = .ok (true, x))
    (hlock : node.context.networkKnowledge.updateKnowledgeIfValid msg.sectionTreeUpdate
      msg.kind.members? start.name = .ok (u, nk))
    (hch : env.updateOnSectionChange ⟨node.context.name, nk⟩ start = .ok cmds) :
    handleAntiEntropyStep env msg node (.started start) =
      ({ node with context := ⟨node.context.name, nk⟩ }, .updated start cmds u) := by
  simp only [handleAntiEntropyStep, hpre, hlock]
  rw [hch]

/-- Everything the first locked step can do: leave the node as it is and fail or skip the
update, or apply the update under the write lock and then fail or go on. -/
theorem handleAntiEntropyStep_started (node : SharedNode) (start : NodeContext) :
    let r := handleAntiEntropyStep env msg node (.started start)
    (r.1 = node ∧ ((∃ e, r.2 = .finished (.error e)) ∨ r.2 = .updated start [] false)) ∨
      ∃ x u nk, start.networkKnowledge.updateKnowledgeIfValid msg.sectionTreeUpdate
          msg.kind.members? start.name = .ok (true, x) ∧
        node.context.networkKnowledge.updateKnowledgeIfValid msg.sectionTreeUpdate
          msg.kind.members? start.name = .ok (u, nk) ∧
        r.1 = { node with context := ⟨node.context.name, nk⟩ } ∧
        ((∃ e, r.2 = .finished (.error e)) ∨ ∃ cmds, r.2 = .updated start cmds u) := by
  simp only [handleAntiEntropyStep]
  split
  · exact .inl ⟨rfl, .inl ⟨_, rfl⟩⟩
  · exact .inl ⟨rfl, .inr rfl⟩
  · next x hpre =>
    split
    · exact .inl ⟨rfl, .inl ⟨_, rfl⟩⟩
    · next u nk hlock =>
      refine .inr ⟨x, u, nk, hpre, hlock, ?_⟩
      split <;> simp

theorem handleAntiEntropyStep_unchecked {node : SharedNode} {start : NodeContext} {e : Error}
    (hpre : start.networkKnowledge.updateKnowledgeIfValid msg.sectionTreeUpdate msg.kind.members?
      start.name = .error e) :
    handleAntiEntropyStep env msg node (.started start) = (node, .finished (.error e)) := by
  simp only [handleAntiEntropyStep, hpre]

@[simp] theorem handleAntiEntropyStep_updated (node : SharedNode) (start : NodeContext)
    (cmds : List Cmd) (u : Bool) :
    handleAntiEntropyStep env msg node (.updated start cmds u) =
      (node, .read start cmds u node.context) := rfl

@[simp] theorem handleAntiEntropyStep_read_true (node : SharedNode) (start latest : NodeContext)
    (cmds : List Cmd) :
    handleAntiEntropyStep env msg node (.read start cmds true latest) =
      ({ node with commTargets := latest.networkKnowledge.members }, .targetsSet start cmds latest) := rfl

@[simp] theorem handleAntiEntropyStep_read_false (node : SharedNode) (start latest : NodeContext)
    (cmds : List Cmd) :
    handleAntiEntropyStep env msg node (.read start cmds false latest) =
      (node, .finished (resendBouncedMsg env msg latest cmds)) := rfl

/-- The last step: the section tree to disk, then the removal check against the snapshot
`start` and the context `latest` read after the update, then the re-send. -/
theorem handleAntiEntropyStep_targetsSet (node : SharedNode) (start latest : NodeContext)
    (cmds : List Cmd) :
    handleAntiEntropyStep env msg node (.targetsSet start cmds latest) =
      ({ node with sectionTreeFile := latest.networkKnowledge.sectionTree },
        .finished (if start.networkKnowledge.isMember latest.name ∧
            ¬ latest.networkKnowledge.isMember latest.name then
          .error (.rejoinRequired .removedFromSection)
        else resendBouncedMsg env msg latest (cmds ++ [env.askForAnyNewDataFromWholeSection latest]))) := by
  simp only [handleAntiEntropyStep, Bool.and_eq_true, Bool.not_eq_true']
  split_ifs <;> simp_all

@[simp] theorem handleAntiEntropyStep_finished (node : SharedNode) (r : Except Error (List Cmd)) :
    handleAntiEntropyStep env msg node (.finished r) = (node, .finished r) := rfl

theorem bouncedTarget_update {members : List NodeState} (h : msg.kind = .update members) :
    bouncedTarget env msg = none := by
  simp [bouncedTarget, h]

theorem bouncedTarget_retry {b : UsrMsgBytes} (h : msg.kind = .retry b) :
    bouncedTarget env msg = some (b, msg.sender) := by
  simp [bouncedTarget, h]

theorem bouncedTarget_redirect {b : UsrMsgBytes} (h : msg.kind = .redirect b) :
    bouncedTarget env msg =
      (chosenDstElder env.keyName msg.sectionTreeUpdate.signedSap).map (b, ·) := by
  simp [bouncedTarget, h]

/-- The re-send adds exactly one `SendMsg` of the bounced node message to its target when
the message's destination key is not the SAP's, and nothing when it is. -/
theorem resendBouncedMsg_node {latest : NodeContext} {cmds : List Cmd} {b : UsrMsgBytes}
    {peer : Peer} {id : MsgId} {dst : Dst} {m : NodeMsg}
    (ht : bouncedTarget env msg = some (b, peer)) (hd : env.codec.deserialize b = .ok (.node id dst m)) :
    resendBouncedMsg env msg latest cmds = .ok (cmds ++
      if dst.sectionKey = msg.sectionTreeUpdate.signedSap.sectionKey then []
      else [.sendMsg m (.single peer) latest]) := by
  simp only [resendBouncedMsg, ht, hd]
  split <;> simp

theorem resendBouncedMsg_none {latest : NodeContext} {cmds : List Cmd}
    (ht : bouncedTarget env msg = none) : resendBouncedMsg env msg latest cmds = .ok cmds := by
  simp [resendBouncedMsg, ht]

/-- The re-send fails only on a bounced message it cannot deserialise. -/
theorem resendBouncedMsg_error {latest : NodeContext} {cmds : List Cmd} {e : Error}
    (h : resendBouncedMsg env msg latest cmds = .error e) : ∃ code, e = .messaging code := by
  unfold resendBouncedMsg at h
  split at h
  · cases h
  · split at h
    · exact ⟨_, (Except.error.inj h).symm⟩
    · split at h <;> cases h
    · cases h

theorem resendBouncedMsg_ne_rejoin {latest : NodeContext} {cmds : List Cmd} :
    resendBouncedMsg env msg latest cmds ≠ .error (.rejoinRequired .removedFromSection) := fun h => by
  obtain ⟨_, hc⟩ := resendBouncedMsg_error env msg h
  cases hc

/-- `handle_anti_entropy_msg` with no other handler in between: its steps from dispatch. -/
def handleAntiEntropyMsg (node : SharedNode) : SharedNode × Stage :=
  (fun p => handleAntiEntropyStep env msg p.1 p.2)^[6] (node, .dispatched)

theorem handleAntiEntropyMsg_eq (node : SharedNode) :
    handleAntiEntropyMsg env msg node =
      let f := fun p : SharedNode × Stage => handleAntiEntropyStep env msg p.1 p.2
      f (f (f (f (f (f (node, .dispatched)))))) := rfl

/-- Every step brings a handler nearer to its end, where it stays. -/
theorem handleAntiEntropyStep_left (node : SharedNode) (st : Stage) :
    (handleAntiEntropyStep env msg node st).2.left < st.left ∨
      ∃ r, st = .finished r ∧ (handleAntiEntropyStep env msg node st).2 = .finished r := by
  cases st with
  | finished r => exact .inr ⟨r, rfl, rfl⟩
  | started start =>
    left
    simp only [handleAntiEntropyStep]
    split <;> (try split) <;> (try split) <;> simp [Stage.left]
  | read start cmds u latest => cases u <;> simp [handleAntiEntropyStep, Stage.left]
  | targetsSet start cmds latest =>
    left
    simp only [handleAntiEntropyStep]
    split <;> simp [Stage.left]
  | _ => simp [handleAntiEntropyStep, Stage.left]

theorem Stage.left_eq_zero {st : Stage} (h : st.left = 0) : ∃ r, st = .finished r := by
  cases st <;> simp_all [Stage.left]

theorem iterate_handleAntiEntropyStep_finished (n : Nat) (p : SharedNode × Stage) (h : p.2.left ≤ n) :
    ∃ r, ((fun p => handleAntiEntropyStep env msg p.1 p.2)^[n] p).2 = .finished r := by
  induction n generalizing p with
  | zero => exact Stage.left_eq_zero (Nat.le_zero.1 h)
  | succ n ih =>
    rw [Function.iterate_succ_apply]
    rcases handleAntiEntropyStep_left env msg p.1 p.2 with hlt | ⟨r, -, hr⟩
    · exact ih _ (by omega)
    · exact ih _ (by simp [hr, Stage.left])

/-- Run alone, the handler finishes. -/
theorem handleAntiEntropyMsg_finished (node : SharedNode) :
    ∃ r, (handleAntiEntropyMsg env msg node).2 = .finished r :=
  iterate_handleAntiEntropyStep_finished env msg 6 _ (by simp [Stage.left])

/-- Run alone on a node whose knowledge the update advances to `nk`, the handler leaves the
node with that knowledge, whatever `update_on_section_change` returns. -/
theorem handleAntiEntropyMsg_knowledge {node : SharedNode} {nk : NetworkKnowledge}
    (h : node.context.networkKnowledge.updateKnowledgeIfValid msg.sectionTreeUpdate msg.kind.members?
      node.context.name = .ok (true, nk)) :
    (handleAntiEntropyMsg env msg node).1.context.networkKnowledge = nk := by
  rw [handleAntiEntropyMsg_eq]
  cases hch : env.updateOnSectionChange ⟨node.context.name, nk⟩ node.context with
  | error e =>
    have hs : handleAntiEntropyStep env msg node (.started node.context) =
        ({ node with context := ⟨node.context.name, nk⟩ }, .finished (.error e)) := by
      simp only [handleAntiEntropyStep, h, hch]
    simp only [handleAntiEntropyStep_dispatched, hs, handleAntiEntropyStep_finished]
  | ok cmds =>
    simp only [handleAntiEntropyStep_dispatched, handleAntiEntropyStep_locked env msg h h hch,
      handleAntiEntropyStep_updated, handleAntiEntropyStep_read_true,
      handleAntiEntropyStep_targetsSet, handleAntiEntropyStep_finished]

/-- Run alone on a node that does not trust the update, the handler leaves the node as it is. -/
theorem handleAntiEntropyMsg_of_error {node : SharedNode} {e : Error}
    (h : node.context.networkKnowledge.updateKnowledgeIfValid msg.sectionTreeUpdate msg.kind.members?
      node.context.name = .error e) :
    (handleAntiEntropyMsg env msg node).1 = node := by
  rw [handleAntiEntropyMsg_eq]
  simp only [handleAntiEntropyStep_dispatched, handleAntiEntropyStep_unchecked env msg h,
    handleAntiEntropyStep_finished]

/-- A SAP of key `7` with two elders, at distances `1` and `2` from the name `t`. -/
def twoEldersSap (t : XorName) : SectionAuthorityProvider :=
  ⟨⟨[]⟩, 7, [⟨t ^^^ 1, 0⟩, ⟨t ^^^ 2, 1⟩], by
    refine List.nodup_cons.2 ⟨fun h => ?_, List.nodup_singleton _⟩
    have := congrArg t.distance (List.mem_singleton.1 h)
    simp [XorName.distance_xor] at this⟩

/-- A Redirect from a section of two elders is re-sent to the elder farther from the name
of the section's key. -/
theorem redirect_resends_to_farther_elder (env : AeEnv) (b : UsrMsgBytes) (sender : Peer) :
    bouncedTarget env ⟨⟨twoEldersSap (env.keyName 7), [7]⟩, .redirect b, sender⟩ =
        some (b, ⟨env.keyName 7 ^^^ 2, 1⟩) ∧
      (env.keyName 7).distance (env.keyName 7 ^^^ 1) < (env.keyName 7).distance (env.keyName 7 ^^^ 2) := by
  simp [bouncedTarget, chosenDstElder, maxBy, twoEldersSap, XorName.cmpDistance, XorName.distance_xor]
  decide

end MyNode

end SafeNetwork
