import SafeNetwork.Knowledge

/-!
# Messages and commands

Wire messages, node messages and the commands the node schedules. Serialisation lives in
`sn_interface`, outside this repository's sources; it is a parameter (`WireCodec`) whose
every step may fail, as the `?`s of the node's code allow.
-/

namespace SafeNetwork

/-- A message id. -/
abbrev MsgId := Nat

/-- The bytes a message goes out as (`qp2p::UsrMsgBytes`). -/
abbrev UsrMsgBytes := List UInt8

/-- What a wire message holds (`MsgKind`). -/
inductive MsgKind where
  | node (name : XorName) (isJoin isAe : Bool)
  | client
  | nodeDataResponse
  | clientDataResponse
  deriving DecidableEq, Repr

/-- A wire message (`WireMsg`): its id, kind, destination and serialised payload. -/
structure WireMsg where
  msgId : MsgId
  kind : MsgKind
  dst : Dst
  payload : List UInt8
  deriving DecidableEq, Repr

/-- The kinds of anti-entropy message (`AntiEntropyKind`). -/
inductive AntiEntropyKind where
  | update (members : List NodeState)
  | retry (bouncedMsg : UsrMsgBytes)
  | redirect (bouncedMsg : UsrMsgBytes)
  deriving DecidableEq

/-- A message between nodes (`NodeMsg`). The anti-entropy engine looks into its own
messages only; any other is `other`. -/
inductive NodeMsg where
  | antiEntropy (sectionTreeUpdate : SectionTreeUpdate) (kind : AntiEntropyKind)
  | other (payload : Nat)
  deriving DecidableEq

/-- A deserialised wire message (`MsgType`): a node message with its id and destination,
or a message of another type. -/
inductive MsgType where
  | node (msgId : MsgId) (dst : Dst) (msg : NodeMsg)
  | other
  deriving DecidableEq

/-- Serialisation of wire messages (`WireMsg::serialize`, `WireMsg::deserialize`,
`serialize_with_new_dst`, `WireMsg::from` for the header and payload of received bytes, and
`MyNode::serialize_node_msg` for a payload). Its errors are codes of
`sn_interface::messaging`, which `?` turns into `Error.messaging`. -/
structure WireCodec where
  serialize : WireMsg → Except Nat UsrMsgBytes
  deserialize : UsrMsgBytes → Except Nat MsgType
  serializeWithNewDst : WireMsg → Dst → Except Nat UsrMsgBytes
  fromBytes : UsrMsgBytes → Except Nat WireMsg
  serializeNodeMsg : XorName → NodeMsg → Except Nat (MsgKind × List UInt8)

/-- The recipients of a message (`Peers`). -/
inductive Peers where
  | single (peer : Peer)
  | multiple (peers : List Peer)
  deriving DecidableEq

/-- A data query, by its operation id. -/
abbrev DataQuery := Nat

/-- A client's message to the network (`ServiceMsg`): a data query, or any other. -/
inductive ServiceMsg where
  | query (query : DataQuery)
  | other (tag : Nat)
  deriving DecidableEq

/-- A message between nodes of the older message layer (`SystemMsg`), told apart where
`validate_msg` tells them apart. -/
inductive SystemMsg where
  | antiEntropy
  | joinRequest
  | joinAsRelocatedRequest
  | other (tag : Nat)
  deriving DecidableEq

/-- A node's context (`NodeContext`): its name and its knowledge of the network. -/
structure NodeContext where
  name : XorName
  networkKnowledge : NetworkKnowledge

/-- The commands the modelled functions schedule (`Cmd`); `other` stands for the commands
of collaborators outside the core. `Cmd::send_msg` draws a fresh message id, which is left
out. `errorResponse` is what `cmd_error_response` builds. -/
inductive Cmd where
  | sendMsg (msg : NodeMsg) (recipients : Peers) (context : NodeContext)
  | trackNodeIssue (name : XorName)
  | handleFailedSendToNode (peer : Peer) (msgId : MsgId)
  | handleValidSystemMsg (origin : Peer) (msgId : MsgId) (msg : SystemMsg) (msgAuthority : Nat)
      (wireMsgPayload : List UInt8)
  | handleValidServiceMsg (msgId : MsgId) (msg : ServiceMsg) (origin : Peer) (auth : Nat)
  | errorResponse (error : Error) (origin : Peer) (msgId : MsgId)
  | other (tag : Nat)

end SafeNetwork
