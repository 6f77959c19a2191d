import SafeNetwork.Messages

/-!
# Validating an incoming message

`Node::validate_msg`: the gate of the older message layer. It deserialises a wire message
and drops what it cannot read; a system message must carry a trusted section key and pass
the entropy check (`applyAe`); a service message must name a destination, reach an elder
(an adult redirects it to the elders) and, for a data query, find room among the pending
data queries, before the entropy check and the handling of the message.

Deserialisation, the key check, the entropy check, the redirect and `DATA_QUERY_LIMIT` are
outside this file's sources; they are parameters (`ValidateEnv`). Handling a valid query adds
it to the pending data queries (`handleCmd`), so a run of messages (`receiveAll`) shows how
many the gate lets in.

The gate turns a query away only when more than `DATA_QUERY_LIMIT` are pending: the pending
queries never exceed `DATA_QUERY_LIMIT + 1` (`receiveAll_pending_le`), and from none,
`DATA_QUERY_LIMIT + 1` queries in a row are all let in (`query_limit_admits_one_more`).
-/

namespace SafeNetwork

/-- A message as `WireMsg::into_msg` gives it in the older layer (`MsgType`). -/
inductive IncomingMsg where
  | system (msgId : MsgId) (msgAuthority : Nat) (dst : Dst) (msg : SystemMsg)
  | service (msgId : MsgId) (msg : ServiceMsg) (dst : Dst) (auth : Nat)

/-- The collaborators of `validate_msg`: deserialisation, `verify_section_key`, the entropy
check and `ae_redirect_to_our_elders` (each giving the AE command it builds, as `Cmd.other`),
serialisation, `ServiceMsg::dst_address`, and `DATA_QUERY_LIMIT`. -/
structure ValidateEnv where
  intoMsg : WireMsg → Except Nat IncomingMsg
  verifySectionKey : Nat → SystemMsg → Bool
  checkForEntropy : WireMsg → BlsPublicKey → XorName → Peer → Except Error (Option Nat)
  aeRedirectToOurElders : Peer → UsrMsgBytes → Except Error Nat
  serialize : WireMsg → Except Nat UsrMsgBytes
  dstAddress : ServiceMsg → Option XorName
  dataQueryLimit : Nat

/-- What `validate_msg` reads of the node: whether it is an elder, and the data queries it
has on the go. -/
structure Node where
  isElder : Bool
  pendingDataQueries : List DataQuery

/-- Collaborators under which every wire message is data query `0` for name `0`, which
passes the entropy check, and `DATA_QUERY_LIMIT` is `limit`. -/
def queryEnv (limit : Nat) : ValidateEnv :=
  ⟨fun _ => .ok (.service 0 (.query 0) ⟨0, 0⟩ 0), fun _ _ => true, fun _ _ _ _ => .ok none,
    fun _ _ => .ok 0, fun _ => .ok [], fun _ => some 0, limit⟩

namespace Node

variable (env : ValidateEnv) (node : Node)

/-- `apply_ae`: an elder checks a system message for entropy, except AE messages and join
requests; entropy found yields the node issue to track and the AE command. -/
def applyAe (origin : Peer) (msg : SystemMsg) (wireMsg : WireMsg) (dst : Dst) :
    Except Error (List Cmd) :=
  if !node.isElder then .ok []
  else match msg with
    | .antiEntropy | .joinRequest | .joinAsRelocatedRequest => .ok []
    | .other _ =>
      match env.checkForEntropy wireMsg dst.sectionKey dst.name origin with
      | .error e => .error e
      | .ok (some aeCmd) => .ok [.trackNodeIssue origin.name, .other aeCmd]
      | .ok none => .ok []

/-- The end of the service branch: the entropy check, then the message to handle. -/
def checkServiceEntropy (origin : Peer) (wireMsg : WireMsg) (msgId : MsgId) (msg : ServiceMsg)
    (dst : Dst) (auth : Nat) (dstName : XorName) : Except Error (List Cmd) :=
  match env.checkForEntropy wireMsg dst.sectionKey dstName origin with
  | .error e => .error e
  | .ok (some cmd) => .ok [.other cmd]
  | .ok none => .ok [.handleValidServiceMsg msgId msg origin auth]

/-- `Node::validate_msg`. -/
def validateMsg (origin : Peer) (wireMsg : WireMsg) : Except Error (List Cmd) :=
  match env.intoMsg wireMsg with
  | .error _ => .ok []
  | .ok (.system msgId msgAuthority dst msg) =>
    if !env.verifySectionKey msgAuthority msg then .ok []
    else
      match node.applyAe env origin msg wireMsg dst with
      | .error e => .error e
      | .ok aeCmds =>
        if !aeCmds.isEmpty then .ok aeCmds
        else .ok [.handleValidSystemMsg origin msgId msg msgAuthority wireMsg.payload]
  | .ok (.service msgId msg dst auth) =>
    match env.dstAddress msg with
    | none => .ok []
    | some dstName =>
      if !node.isElder then
        match env.serialize wireMsg with
        | .error e => .error (.messaging e)
        | .ok bytes => (env.aeRedirectToOurElders origin bytes).map fun cmd => [.other cmd]
      else
        match msg with
        | .query query =>
          if node.pendingDataQueries.length > env.dataQueryLimit then
            .ok [.errorResponse (.cannotHandleQuery query) origin msgId]
          else checkServiceEntropy env origin wireMsg msgId msg dst auth dstName
        | .other _ => checkServiceEntropy env origin wireMsg msgId msg dst auth dstName

/-- Modelled from the spec: handling a valid data query adds it to the pending data queries;
no other command of `validate_msg` touches them. -/
def handleCmd : Cmd → Node
  | .handleValidServiceMsg _ (.query q) _ _ =>
    { node with pendingDataQueries := node.pendingDataQueries ++ [q] }
  | _ => node

/-- A message received: validated, and its commands handled; an error changes nothing. -/
def receive (m : Peer × WireMsg) : Node :=
  match node.validateMsg env m.1 m.2 with
  | .ok cmds => cmds.foldl handleCmd node
  | .error _ => node

/-- Messages received one after another. -/
def receiveAll (msgs : List (Peer × WireMsg)) : Node := msgs.foldl (fun n m => n.receive env m) node

@[simp] theorem receiveAll_cons (m : Peer × WireMsg) (msgs : List (Peer × WireMsg)) :
    node.receiveAll env (m :: msgs) = (node.receive env m).receiveAll env msgs := rfl

/-! ## How many queries the gate lets in -/

/-- The commands `validate_msg` returns, but for the handling of one valid data query. -/
def NoQueryHandled (cmds : List Cmd) : Prop :=
  ∀ c ∈ cmds, ∀ msgId q origin auth, c ≠ .handleValidServiceMsg msgId (.query q) origin auth

theorem foldl_handleCmd_of_noQuery {cmds : List Cmd} (h : NoQueryHandled cmds) :
    cmds.foldl handleCmd node = node := by
  induction cmds generalizing node with
  | nil => rfl
  | cons c cs ih =>
    have hc : node.handleCmd c = node := by
      cases c with
      | handleValidServiceMsg msgId msg origin auth =>
        cases msg with
        | query q => exact absurd rfl (h _ (List.mem_cons_self _ _) msgId q origin auth)
        | other _ => rfl
      | _ => rfl
    rw [List.foldl_cons, hc]
    exact ih node fun c' hc' => h c' (List.mem_cons_of_mem _ hc')

theorem noQueryHandled_singleton_other (n : Nat) : NoQueryHandled [.other n] := by
  simp [NoQueryHandled]

theorem applyAe_noQuery {origin : Peer} {msg : SystemMsg} {wireMsg : WireMsg} {dst : Dst}
    {cmds : List Cmd} (h : node.applyAe env origin msg wireMsg dst = .ok cmds) :
    NoQueryHandled cmds := by
  unfold applyAe at h
  split at h
  · cases h; simp [NoQueryHandled]
  · split at h
    any_goals (cases h; simp [NoQueryHandled])
    split at h <;> cases h <;> simp [NoQueryHandled]

theorem checkServiceEntropy_ok {origin : Peer} {wireMsg : WireMsg} {msgId : MsgId}
    {msg : ServiceMsg} {dst : Dst} {auth : Nat} {dstName : XorName} {cmds : List Cmd}
    (h : checkServiceEntropy env origin wireMsg msgId msg dst auth dstName = .ok cmds) :
    NoQueryHandled cmds ∨ cmds = [.handleValidServiceMsg msgId msg origin auth] := by
  unfold checkServiceEntropy at h
  split at h <;> cases h
  · exact .inl (noQueryHandled_singleton_other _)
  · exact .inr rfl

/-- Everything `validate_msg` lets through: commands that handle no data query, or the
handling of one data query, let in by an elder with at most `DATA_QUERY_LIMIT` pending. -/
theorem validateMsg_ok {origin : Peer} {wireMsg : WireMsg} {cmds : List Cmd}
    (h : node.validateMsg env origin wireMsg = .ok cmds) :
    NoQueryHandled cmds ∨ ∃ msgId q origin' auth, node.isElder ∧
      node.pendingDataQueries.length ≤ env.dataQueryLimit ∧
      cmds = [.handleValidServiceMsg msgId (.query q) origin' auth] := by
  have hnil : NoQueryHandled [] := by simp [NoQueryHandled]
  unfold validateMsg at h
  split at h
  · cases h; exact .inl hnil
  · split_ifs at h
    · cases h; exact .inl hnil
    · split at h
      · cases h
      · next aeCmds hae =>
        split_ifs at h <;> cases h
        · exact .inl (applyAe_noQuery env node hae)
        · exact .inl (by simp [NoQueryHandled])
  · next msgId msg dst auth _ =>
    split at h
    · cases h; exact .inl hnil
    · by_cases helder : node.isElder
      · simp only [helder, Bool.not_true, Bool.false_eq_true, if_false] at h
        cases msg with
        | query q =>
          by_cases hlen : node.pendingDataQueries.length > env.dataQueryLimit
          · simp only [if_pos hlen] at h
            cases h
            exact .inl (by simp [NoQueryHandled])
          · simp only [if_neg hlen] at h
            rcases checkServiceEntropy_ok env h with h' | rfl
            · exact .inl h'
            · exact .inr ⟨msgId, q, origin, auth, helder, by omega, rfl⟩
        | other t =>
          rcases checkServiceEntropy_ok env h with h' | rfl
          · exact .inl h'
          · exact .inl (by simp [NoQueryHandled])
      · simp only [Bool.not_eq_true] at helder
        simp only [helder, Bool.not_false, if_true] at h
        split at h
        · cases h
        · next bytes _ =>
          cases hr : env.aeRedirectToOurElders origin bytes <;> rw [hr] at h <;> cases h
          exact .inl (noQueryHandled_singleton_other _)

/-- What a received message does to the pending data queries: nothing, or it is a data
query let in by an elder with at most `DATA_QUERY_LIMIT` pending, and it is added. -/
theorem receive_pending (m : Peer × WireMsg) :
    (node.receive env m).pendingDataQueries = node.pendingDataQueries ∨
      ∃ q, node.isElder ∧ node.pendingDataQueries.length ≤ env.dataQueryLimit ∧
        (node.receive env m).pendingDataQueries = node.pendingDataQueries ++ [q] := by
  unfold receive
  split
  · next cmds h =>
    rcases validateMsg_ok env node h with h' | ⟨_, q, _, _, helder, hle, rfl⟩
    · exact .inl (by rw [foldl_handleCmd_of_noQuery node h'])
    · exact .inr ⟨q, helder, hle, rfl⟩
  · exact .inl rfl

/-- The pending data queries never exceed `DATA_QUERY_LIMIT + 1` on any run of messages. -/
theorem receiveAll_pending_le (msgs : List (Peer × WireMsg))
    (h : node.pendingDataQueries.length ≤ env.dataQueryLimit + 1) :
    (node.receiveAll env msgs).pendingDataQueries.length ≤ env.dataQueryLimit + 1 := by
  induction msgs generalizing node with
  | nil => exact h
  | cons m ms ih =>
    refine ih _ ?_
    rcases node.receive_pending env m with he | ⟨q, -, hle, he⟩ <;> rw [he]
    · exact h
    · rw [List.length_append, List.length_singleton]
      omega

section Query

variable {origin : Peer} {w : WireMsg} {msgId : MsgId} {q : DataQuery} {dst : Dst} {auth : Nat}
  {dstName : XorName}
  (hmsg : env.intoMsg w = .ok (.service msgId (.query q) dst auth))
  (hdst : env.dstAddress (.query q) = some dstName)
  (hae : env.checkForEntropy w dst.sectionKey dstName origin = .ok none)
include hmsg hdst hae

/-- An elder with at most `DATA_QUERY_LIMIT` pending lets a data query in. -/
theorem receive_query (helder : node.isElder)
    (hlen : node.pendingDataQueries.length ≤ env.dataQueryLimit) :
    node.receive env (origin, w) =
      { node with pendingDataQueries := node.pendingDataQueries ++ [q] } := by
  have hv : node.validateMsg env origin w =
      .ok [.handleValidServiceMsg msgId (.query q) origin auth] := by
    simp only [validateMsg, hmsg, hdst, helder, Bool.not_true, Bool.false_eq_true, if_false,
      if_neg (Nat.not_lt.2 hlen), checkServiceEntropy, hae]
  simp only [receive, hv, List.foldl_cons, List.foldl_nil, handleCmd]

theorem receiveAll_queries (k : Nat) (ps : List DataQuery)
    (hk : ps.length + k ≤ env.dataQueryLimit + 1) :
    ((⟨true, ps⟩ : Node).receiveAll env (List.replicate k (origin, w))).pendingDataQueries =
      ps ++ List.replicate k q := by
  induction k generalizing ps with
  | zero => simp [receiveAll]
  | succ k ih =>
    rw [List.replicate_succ, receiveAll_cons,
      receive_query env ⟨true, ps⟩ hmsg hdst hae rfl (by simp only; omega), ih _ (by simp; omega)]
    simp only [List.append_assoc, List.singleton_append, List.replicate_succ]

/-- From no pending query, an elder lets `DATA_QUERY_LIMIT + 1` data queries in, one more
than the limit: the gate turns a query away only once more than `DATA_QUERY_LIMIT` are
pending. -/
theorem query_limit_admits_one_more :
    ((⟨true, []⟩ : Node).receiveAll env
      (List.replicate (env.dataQueryLimit + 1) (origin, w))).pendingDataQueries.length =
        env.dataQueryLimit + 1 := by
  rw [receiveAll_queries env hmsg hdst hae _ [] (by simp), List.nil_append, List.length_replicate]

end Query

theorem query_limit_two_admits_three :
    ((⟨true, []⟩ : Node).receiveAll (queryEnv 2)
      (List.replicate 3 (⟨0, 0⟩, ⟨0, .client, ⟨0, 0⟩, []⟩))).pendingDataQueries.length = 3 :=
  query_limit_admits_one_more (queryEnv 2) rfl rfl rfl

end Node

end SafeNetwork
