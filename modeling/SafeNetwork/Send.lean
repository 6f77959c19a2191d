import SafeNetwork.Exchange

/-!
# Sending a node message

`MyNode::send_msg` serialises a message once per recipient (`into_msg_bytes`), hands each
copy to the comms layer (`Comm::send_out_bytes`) and returns one `HandleFailedSendToNode`
per send that failed with `FailedSend`. The comms layer is a parameter (`Comm`) whose every
send may fail; what `send_msg` hands it is the first component of `sendMsg`.

* `send_msg_fans_out_unless_a_copy_fails`: when `into_msg_bytes` succeeds, every recipient
  with a route gets one copy, in order, with the destination `generate_dst` gives for its
  name, recipients without one are skipped, and the commands are the failed sends' and no
  other; a copy that fails to serialise aborts the whole send, and nothing is handed over;
* `one_bad_copy_blocks_all`: so the failure of one recipient's copy keeps every other
  recipient from getting its own, where the code's own TODO would log the error and go on.

`Peers::Multiple` holds a `BTreeSet`; here it is a list, and every statement is for every
list, so in particular for the sorted ones without repeats that the set yields.
-/

namespace SafeNetwork

/-- What `Comm::send_out_bytes` returns: the bytes went out, `FailedSend(peer)`, or another
error of the comms layer. -/
inductive SendResult where
  | ok
  | failedSend (peer : Peer)
  | other (code : Nat)

/-- The peer of a `FailedSend`. -/
def SendResult.failedPeer? : SendResult → Option Peer
  | .failedSend peer => some peer
  | _ => none

/-- The comms layer (`sn_comms::Comm`), outside this repository's sources. -/
structure Comm where
  sendOutBytes : Peer → MsgId → UsrMsgBytes → SendResult

/-- The recipients of a message, as `into_msg_bytes` lists them. -/
def Peers.toList : Peers → List Peer
  | .single peer => [peer]
  | .multiple peers => peers

namespace MyNode

/-- `MyNode::send_msg`: the copies handed to `send_out_bytes`, each with the msg id, and the
commands returned. The sends run together (`join_all`); their results are taken in the
order of the copies. -/
def sendMsg (codec : WireCodec) (comm : Comm) (msg : NodeMsg) (msgId : MsgId)
    (recipients : Peers) (context : NodeContext) (randomDst : Dst) :
    List (Peer × UsrMsgBytes) × Except Error (List Cmd) :=
  match intoMsgBytes codec context.networkKnowledge context.name msg msgId recipients randomDst with
  | .error e => ([], .error e)
  | .ok peerMsgs =>
    let results := peerMsgs.map fun (peer, msg) => comm.sendOutBytes peer msgId msg
    let cmds := results.filterMap fun result =>
      match result with
      | .failedSend peer => some (.handleFailedSendToNode peer msgId)
      | _ => none
    (peerMsgs, .ok cmds)

variable {codec : WireCodec} {nk : NetworkKnowledge} {w : WireMsg}

/-- The loop of `into_msg_bytes`, when it succeeds: one copy per recipient with a route, in
order, carrying the destination the knowledge gives for its name. -/
theorem bytesPerRecipient_ok {peers : List Peer} {out : List (Peer × UsrMsgBytes)}
    (h : bytesPerRecipient codec nk w peers = .ok out) :
    out.map Prod.fst = peers.filter (fun p => (nk.generateDst p.name).isOk) ∧
      ∀ s ∈ out, ∃ d, nk.generateDst s.1.name = .ok d ∧ codec.serializeWithNewDst w d = .ok s.2 := by
  induction peers generalizing out with
  | nil =>
    cases h
    exact ⟨rfl, fun s hs => by cases hs⟩
  | cons p ps ih =>
    rcases bytesPerRecipient_cons_ok h with ⟨e, hd, hr⟩ | ⟨d, b, out', hd, hs, hr, rfl⟩
    · -- no route: the recipient is skipped
      simpa [hd, Except.isOk, Except.toBool] using ih hr
    · -- a route: its copy comes first
      obtain ⟨hfst, hcopy⟩ := ih hr
      refine ⟨by simp [hd, hfst, Except.isOk, Except.toBool], fun s hs' => ?_⟩
      rcases List.mem_cons.1 hs' with rfl | hs'
      · exact ⟨d, hd, hs⟩
      · exact hcopy s hs'

/-- A recipient with a route whose copy fails to serialise makes the whole loop fail. -/
theorem bytesPerRecipient_error_of_mem {peers : List Peer} {p : Peer} {d : Dst} {c : Nat}
    (hp : p ∈ peers) (hd : nk.generateDst p.name = .ok d)
    (hs : codec.serializeWithNewDst w d = .error c) :
    ∃ e, bytesPerRecipient codec nk w peers = .error e := by
  induction peers with
  | nil => cases hp
  | cons q qs ih =>
    rcases List.mem_cons.1 hp with rfl | hq
    · exact ⟨.messaging c, by simp only [bytesPerRecipient, hd, hs]⟩
    · -- the loop fails on the rest, so it cannot succeed on the whole list
      obtain ⟨e, he⟩ := ih hq
      cases hr : bytesPerRecipient codec nk w (q :: qs) with
      | error e' => exact ⟨e', rfl⟩
      | ok out =>
        rcases bytesPerRecipient_cons_ok hr with ⟨_, _, h⟩ | ⟨_, _, _, _, _, h, _⟩ <;>
          exact nomatch he.symm.trans h

/-- `into_msg_bytes`, when it succeeds, is its loop over the recipients. -/
theorem intoMsgBytes_ok {ourNodeName : XorName} {msg : NodeMsg} {msgId : MsgId}
    {recipients : Peers} {randomDst : Dst} {copies : List (Peer × UsrMsgBytes)}
    (h : intoMsgBytes codec nk ourNodeName msg msgId recipients randomDst = .ok copies) :
    ∃ kind payload, codec.serializeNodeMsg ourNodeName msg = .ok (kind, payload) ∧
      bytesPerRecipient codec nk ⟨msgId, kind, randomDst, payload⟩ recipients.toList =
        .ok copies := by
  unfold intoMsgBytes at h
  cases hs : codec.serializeNodeMsg ourNodeName msg with
  | error e => simp [hs] at h
  | ok r =>
    obtain ⟨kind, payload⟩ := r
    cases hi : codec.serialize ⟨msgId, kind, randomDst, payload⟩ with
    | error e => simp [hs, hi] at h
    | ok _ =>
      simp only [hs, hi] at h
      exact ⟨kind, payload, rfl, by cases recipients <;> exact h⟩

/-- A recipient with a route whose copy fails to serialise makes `into_msg_bytes` fail. -/
theorem intoMsgBytes_error_of_mem {ourNodeName : XorName} {msg : NodeMsg} {msgId : MsgId}
    {recipients : Peers} {randomDst : Dst} {kind : MsgKind} {payload : List UInt8} {p : Peer}
    {d : Dst} {c : Nat} (hs : codec.serializeNodeMsg ourNodeName msg = .ok (kind, payload))
    (hp : p ∈ recipients.toList) (hd : nk.generateDst p.name = .ok d)
    (hc : codec.serializeWithNewDst ⟨msgId, kind, randomDst, payload⟩ d = .error c) :
    ∃ e, intoMsgBytes codec nk ourNodeName msg msgId recipients randomDst = .error e := by
  unfold intoMsgBytes
  simp only [hs]
  split
  · exact ⟨_, rfl⟩
  · cases recipients <;> exact bytesPerRecipient_error_of_mem hp hd hc

/-- `send_msg`, for every message, msg id and recipient set. When `into_msg_bytes`
succeeds, the comms layer gets one copy for each recipient with a route, in order, each
with the destination `generate_dst` gives for its name; recipients without one are
skipped; and the commands returned are one `HandleFailedSendToNode` per send that failed
with `FailedSend`, in order, and no other. When it fails, nothing is handed over; and it
fails as soon as the copy of one recipient with a route fails to serialise. -/
theorem send_msg_fans_out_unless_a_copy_fails (codec : WireCodec) (comm : Comm) (msg : NodeMsg)
    (msgId : MsgId) (recipients : Peers) (context : NodeContext) (randomDst : Dst) :
    let r := sendMsg codec comm msg msgId recipients context randomDst
    let nk := context.networkKnowledge
    (∀ cmds, r.2 = .ok cmds → ∃ kind payload,
      codec.serializeNodeMsg context.name msg = .ok (kind, payload) ∧
      r.1.map Prod.fst = recipients.toList.filter (fun p => (nk.generateDst p.name).isOk) ∧
      (∀ s ∈ r.1, ∃ d, nk.generateDst s.1.name = .ok d ∧
        codec.serializeWithNewDst ⟨msgId, kind, randomDst, payload⟩ d = .ok s.2) ∧
      cmds = (r.1.filterMap fun s => (comm.sendOutBytes s.1 msgId s.2).failedPeer?).map
        (Cmd.handleFailedSendToNode · msgId)) ∧
    (∀ e, r.2 = .error e → r.1 = []) ∧
    (∀ kind payload p d c, codec.serializeNodeMsg context.name msg = .ok (kind, payload) →
      p ∈ recipients.toList → nk.generateDst p.name = .ok d →
      codec.serializeWithNewDst ⟨msgId, kind, randomDst, payload⟩ d = .error c →
      r.1 = [] ∧ ∃ e, r.2 = .error e) := by
  cases hi : intoMsgBytes codec context.networkKnowledge context.name msg msgId recipients
      randomDst with
  | error e =>
    -- `into_msg_bytes` fails: nothing is handed over and its error is returned
    simp only [sendMsg, hi]
    exact ⟨fun _ h => (nomatch h), fun _ _ => trivial, fun _ _ _ _ _ _ _ _ _ => ⟨trivial, e, rfl⟩⟩
  | ok copies =>
    -- it succeeds: one copy per recipient with a route, and one command per `FailedSend`
    obtain ⟨kind, payload, hs, hb⟩ := intoMsgBytes_ok hi
    obtain ⟨hfst, hcopy⟩ := bytesPerRecipient_ok hb
    simp only [sendMsg, hi]
    refine ⟨fun cmds h => ⟨kind, payload, hs, hfst, hcopy, ?_⟩, fun _ h => (nomatch h),
      fun _ _ _ _ _ hs' hp hd hc => ?_⟩
    · rw [← Except.ok.inj h, List.filterMap_map, List.map_filterMap]
      congr 1
      funext s
      simp only [Function.comp]
      cases comm.sendOutBytes s.1 msgId s.2 <;> rfl
    · obtain ⟨e, he⟩ := intoMsgBytes_error_of_mem hs' hp hd hc
      exact nomatch hi.symm.trans he

end MyNode

/-- `unaryCodec`, but failing on every copy for the name `2`. -/
def pickyCodec : WireCodec :=
  { unaryCodec with
    serializeWithNewDst := fun w d =>
      if d.name = 2 then .error 0 else unaryCodec.serializeWithNewDst w d }

/-- Node `0` sends to nodes `1` and `2` of its section. The copy for node `1` has a route and
serialises, the one for node `2` does not, and the `?` after `serialize_with_new_dst` makes
`send_msg` fail before node `1`'s copy is handed over. -/
theorem one_bad_copy_blocks_all :
    memberKnowledge.generateDst 1 = .ok ⟨1, 0⟩ ∧
      pickyCodec.serializeWithNewDst ⟨0, .client, ⟨0, 0⟩, []⟩ ⟨1, 0⟩ =
        .ok (unaryBytes ⟨0, .client, ⟨1, 0⟩, []⟩) ∧
      (MyNode.sendMsg pickyCodec ⟨fun _ _ _ => .ok⟩ (.other 0) 0 (.multiple [⟨1, 0⟩, ⟨2, 0⟩])
          ⟨0, memberKnowledge⟩ ⟨0, 0⟩).1 = [] ∧
      ∃ e, (MyNode.sendMsg pickyCodec ⟨fun _ _ _ => .ok⟩ (.other 0) 0
          (.multiple [⟨1, 0⟩, ⟨2, 0⟩]) ⟨0, memberKnowledge⟩ ⟨0, 0⟩).2 = .error e :=
  ⟨rfl, rfl, (MyNode.send_msg_fans_out_unless_a_copy_fails pickyCodec _ (.other 0) 0
    (.multiple [⟨1, 0⟩, ⟨2, 0⟩]) ⟨0, memberKnowledge⟩ ⟨0, 0⟩).2.2 .client [] ⟨2, 0⟩ ⟨2, 0⟩ 0 rfl
    (List.mem_cons_of_mem _ (List.mem_singleton_self _)) rfl rfl⟩

end SafeNetwork
