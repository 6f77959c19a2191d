import SafeNetwork.Convergence

/-!
# The nodes of a section agree on its history

The nodes of our section exchange AE messages through the comms layer, which delivers them
in any order, or loses them (§5). A `Network` is the nodes, each with its anti-entropy
handlers in flight (`System`), and the messages on the wire. A node sends an AE message whose
update `generate_ae_section_tree_update` makes from its knowledge: an Update of
`send_ae_update_to_nodes`, a Retry of `check_for_entropy`. A delivered message has a handler
dispatched for it at its node, and the handlers of all nodes take their atomic steps in any
interleaving.

Our section moves along one history of SAPs with distinct keys (`sapAt`, `keysUpTo`). While
every node holds a position of it, each message a node sends carries a segment of it: the
history's keys from the key it was sent under to the sender's key, with the sender's SAP
(`generateAeSectionTreeUpdate_segment`). A segment checked by a node of the history leaves
it where it is or moves it forward (`updateKnowledgeIfValid_segment`): one that starts at or
before the node's key proves what the whole update to its SAP proves, one that starts after
it proves nothing about the node's key. So, over every run of the network:

* `section_history_agreed_over_run`: every node holds a SAP of the history with the history's
  chain up to it, of any two nodes' chains one is a prefix of the other (§4.1: the chain is
  totally ordered by ancestry), and no node's chain ever shrinks;
* `knowledge_never_invented`: no node goes past the highest position that a node or a message
  held at the start. A node sends only what its knowledge generates, and a segment never moves
  a node past its SAP, so the bound `M` of `Within` is kept by every event; being on the history
  is the case `M = later.length`.
-/

namespace SafeNetwork

namespace NetworkKnowledge

theorem dropWhile_bne_eq_drop_indexOf (key : BlsPublicKey) (l : List BlsPublicKey) :
    l.dropWhile (· != key) = l.drop (l.indexOf key) := by
  induction l with
  | nil => rfl
  | cons a l ih =>
    by_cases h : a = key
    · subst h
      simp [List.indexOf_cons_self]
    · simp [List.dropWhile_cons, h, List.indexOf_cons_ne l h, ih]

theorem dropWhile_drop_of_not_mem_take {key : BlsPublicKey} {l : List BlsPublicKey} {i : Nat}
    (h : key ∉ l.take i) : (l.drop i).dropWhile (· != key) = l.dropWhile (· != key) := by
  induction l generalizing i with
  | nil => simp
  | cons a l ih =>
    cases i with
    | zero => rfl
    | succ i =>
      simp only [List.take_succ_cons, List.mem_cons, not_or] at h
      simp [List.dropWhile_cons, Ne.symm h.1, ih h.2]

/-- A chain with keys dropped that come before `key` proves the same of `key`, and adds the same
keys after it. -/
theorem provesNewer_drop {key : BlsPublicKey} {chain : List BlsPublicKey} {i : Nat}
    (h : key ∉ chain.take i) (hi : i < chain.length) :
    provesNewer key (chain.drop i) = provesNewer key chain ∧
      keysAfter key (chain.drop i) = keysAfter key chain := by
  have hmem : key ∈ chain.drop i ↔ key ∈ chain := ⟨List.mem_of_mem_drop, fun hk => by
    rw [← List.take_append_drop i chain, List.mem_append] at hk
    exact hk.resolve_left h⟩
  refine ⟨?_, by rw [keysAfter, keysAfter, dropWhile_drop_of_not_mem_take h]⟩
  simp only [provesNewer, List.getLast?_drop, if_neg (Nat.not_le.2 hi), hmem]

/-- A chain of distinct keys with `key` dropped proves nothing newer than `key`. -/
theorem provesNewer_drop_of_mem_take {key : BlsPublicKey} {chain : List BlsPublicKey} {i : Nat}
    (hnodup : chain.Nodup) (h : key ∈ chain.take i) : provesNewer key (chain.drop i) = false := by
  have hnot : key ∉ chain.drop i := List.disjoint_take_drop hnodup le_rfl h
  simp [provesNewer, hnot]

variable {nk : NetworkKnowledge}

/-- Two updates with one SAP, whose chains prove the same of our key, end alike and add the same
keys after it, move our SAP and chain alike. -/
theorem updateOurSection_congr (u v : SectionTreeUpdate) (hsap : u.signedSap = v.signedSap)
    (hnewer : provesNewer nk.sectionKey u.proofChain = provesNewer nk.sectionKey v.proofChain)
    (hlast : u.proofChain.getLast? = v.proofChain.getLast?)
    (hafter : keysAfter nk.sectionKey u.proofChain = keysAfter nk.sectionKey v.proofChain) :
    (nk.updateOurSection u).1 = (nk.updateOurSection v).1 ∧
      (nk.updateOurSection u).2.signedSap = (nk.updateOurSection v).2.signedSap ∧
      (nk.updateOurSection u).2.sectionChain = (nk.updateOurSection v).2.sectionChain := by
  unfold updateOurSection
  simp only [hnewer, hlast, hsap]
  split_ifs <;> simp [hafter]

theorem updateOurSection_of_not_newer {u : SectionTreeUpdate}
    (h : provesNewer nk.sectionKey u.proofChain = false) : nk.updateOurSection u = (false, nk) := by
  simp [updateOurSection, h]

/-- An update of another section changes neither our SAP nor our chain. -/
theorem updateSectionTree_ours (u : SectionTreeUpdate) :
    (nk.updateSectionTree u).2.signedSap = nk.signedSap ∧
      (nk.updateSectionTree u).2.sectionChain = nk.sectionChain := by
  unfold updateSectionTree
  split <;> exact ⟨rfl, rfl⟩

end NetworkKnowledge

/-! ## Segments of a history -/

section History

variable (s₀ : SectionAuthorityProvider) (later : List SectionAuthorityProvider)

/-- The update to `sapAt n` whose proof chain is the history's keys from the `i`-th up to that
of `sapAt n`. -/
def segmentUpdate (i n : Nat) : SectionTreeUpdate := ⟨sapAt s₀ later n, (keysUpTo s₀ later n).drop i⟩

/-- An update that is a segment of the history. -/
def IsSegment (u : SectionTreeUpdate) : Prop :=
  ∃ i n, i ≤ n ∧ n ≤ later.length ∧ u = segmentUpdate s₀ later i n

theorem take_keysUpTo {i n : Nat} (h : i ≤ n) :
    (keysUpTo s₀ later n).take (i + 1) = keysUpTo s₀ later i := by
  simp [keysUpTo, List.take_take, min_eq_left h]

theorem keysUpTo_prefix_of_le {m n : Nat} (h : m ≤ n) : keysUpTo s₀ later m <+: keysUpTo s₀ later n :=
  take_keysUpTo s₀ later h ▸ List.take_prefix _ _

variable {s₀ later} {base : List BlsPublicKey} {nk : NetworkKnowledge} {m i n : Nat}

theorem key_mem_take_keysUpTo (hK : ((s₀ :: later).map (·.sectionKey)).Nodup)
    (hm : m ≤ later.length) (hi : i ≤ n + 1) :
    (sapAt s₀ later m).sectionKey ∈ (keysUpTo s₀ later n).take i ↔ m < i := by
  cases i with
  | zero => simp
  | succ i =>
    rw [take_keysUpTo s₀ later (by omega), key_mem_keysUpTo_iff hK hm]
    exact Nat.lt_succ_iff.symm

theorem AtHistory.congr {nk' : NetworkKnowledge} (h : AtHistory s₀ later base m nk)
    (hsap : nk'.signedSap = nk.signedSap) (hchain : nk'.sectionChain = nk.sectionChain) :
    AtHistory s₀ later base m nk' :=
  ⟨h.le, hsap.trans h.sap, hchain.trans h.chain⟩

/-- What a node at `sapAt n` sends under any key is a segment of the history to `sapAt n`: its
chain from that key when it holds it, its whole chain otherwise. -/
theorem generateAeSectionTreeUpdate_segment (hm : AtHistory s₀ later [s₀.sectionKey] n nk)
    (key : Option BlsPublicKey) :
    ∃ i ≤ n, generateAeSectionTreeUpdate nk key = segmentUpdate s₀ later i n := by
  have hchain : nk.sectionChain = keysUpTo s₀ later n := hm.chain
  have hlen : nk.sectionChain.length = n + 1 := by simp [hchain, keysUpTo, hm.le]
  have hwhole : ∃ i ≤ n, (⟨nk.signedSap, nk.sectionChain⟩ : SectionTreeUpdate) = segmentUpdate s₀ later i n :=
    ⟨0, n.zero_le, by rw [hm.sap, hchain]; rfl⟩
  cases key with
  | none => exact hwhole
  | some k =>
    simp only [generateAeSectionTreeUpdate, Option.some_bind,
      NetworkKnowledge.getProofChainToCurrentSection]
    split_ifs with hk
    · have hidx := List.indexOf_lt_length.2 hk
      refine ⟨nk.sectionChain.indexOf k, by omega, ?_⟩
      rw [Option.getD_some, NetworkKnowledge.dropWhile_bne_eq_drop_indexOf, segmentUpdate, ← hm.sap,
        ← hchain]
    · exact hwhole

/-- A segment that starts at or before the key of `sapAt m` moves knowledge there as the whole
update to its SAP does: to the later of `m` and `n`, reporting a change when `n` is the later. -/
theorem updateOurSection_segment_of_le (hK : ((s₀ :: later).map (·.sectionKey)).Nodup)
    (hm : AtHistory s₀ later base m nk) (him : i ≤ m) (hin : i ≤ n) (hn : n ≤ later.length) :
    AtHistory s₀ later base (max m n) (nk.updateOurSection (segmentUpdate s₀ later i n)).2 ∧
      (m < n → (nk.updateOurSection (segmentUpdate s₀ later i n)).1 = true) := by
  have hkey : nk.sectionKey = (sapAt s₀ later m).sectionKey := congrArg (·.sectionKey) hm.sap
  have hlen : (keysUpTo s₀ later n).length = n + 1 := by simp [keysUpTo, hn]
  have hnot : nk.sectionKey ∉ (keysUpTo s₀ later n).take i := by
    rw [hkey, key_mem_take_keysUpTo hK hm.le (by omega)]
    omega
  obtain ⟨hnewer, hafter⟩ := NetworkKnowledge.provesNewer_drop hnot (by omega)
  obtain ⟨hb, hsap, hchain⟩ := nk.updateOurSection_congr (segmentUpdate s₀ later i n)
    (historyUpdate s₀ later n) rfl hnewer (List.getLast?_drop.trans (if_neg (by omega))) hafter
  obtain ⟨hat, hnew⟩ := updateOurSection_history hK hm hn
  exact ⟨hat.congr hsap hchain, fun h => hb.trans (hnew h)⟩

/-- A segment moves knowledge at `sapAt m` as the whole update to its SAP does when it starts at
or before the key of `sapAt m`, and leaves it where it is otherwise. -/
theorem updateOurSection_segment (hK : ((s₀ :: later).map (·.sectionKey)).Nodup)
    (hm : AtHistory s₀ later base m nk) (hin : i ≤ n) (hn : n ≤ later.length) :
    ∃ m', m ≤ m' ∧ m' ≤ max m n ∧
      AtHistory s₀ later base m' (nk.updateOurSection (segmentUpdate s₀ later i n)).2 := by
  by_cases him : i ≤ m
  · exact ⟨max m n, le_max_left _ _, le_rfl, (updateOurSection_segment_of_le hK hm him hin hn).1⟩
  · have hkey : nk.sectionKey = (sapAt s₀ later m).sectionKey := congrArg (·.sectionKey) hm.sap
    have hin' : nk.sectionKey ∈ (keysUpTo s₀ later n).take i := by
      rw [hkey, key_mem_take_keysUpTo hK hm.le (by omega)]
      omega
    rw [NetworkKnowledge.updateOurSection_of_not_newer
      (NetworkKnowledge.provesNewer_drop_of_mem_take (keysUpTo_nodup s₀ later hK n) hin')]
    exact ⟨m, le_rfl, le_max_left _ _, hm⟩

/-- A segment to `sapAt n`, checked by a node at `sapAt m`, leaves it at `sapAt m` or moves it
forward along the history, no further than `sapAt n`, whether it takes it for our section's
update or another section's. -/
theorem updateKnowledgeIfValid_segment (hK : ((s₀ :: later).map (·.sectionKey)).Nodup)
    (hm : AtHistory s₀ later base m nk) (hin : i ≤ n) (hn : n ≤ later.length)
    {ms : Option (List NodeState)} {ourName : XorName} {b : Bool} {nk' : NetworkKnowledge}
    (h : nk.updateKnowledgeIfValid (segmentUpdate s₀ later i n) ms ourName = .ok (b, nk')) :
    ∃ m', m ≤ m' ∧ m' ≤ max m n ∧ AtHistory s₀ later base m' nk' := by
  unfold NetworkKnowledge.updateKnowledgeIfValid at h
  split at h
  · simp only [Except.ok.injEq, Prod.mk.injEq] at h
    obtain ⟨-, rfl⟩ := h
    unfold NetworkKnowledge.applyUpdate
    split
    · obtain ⟨m', hle, hge, hat⟩ := updateOurSection_segment hK hm hin hn
      exact ⟨m', hle, hge, hat.congr (by simp) (by simp)⟩
    · obtain ⟨hsap, hchain⟩ := nk.updateSectionTree_ours (segmentUpdate s₀ later i n)
      exact ⟨m, le_rfl, le_max_left _ _, hm.congr (by simp [hsap]) (by simp [hchain])⟩
  · cases h

theorem getElem?_keysUpTo (hn : n ≤ later.length) (hi : i ≤ n) :
    (keysUpTo s₀ later n)[i]? = some (sapAt s₀ later i).sectionKey := by
  induction later generalizing s₀ i n with
  | nil =>
    obtain rfl : i = 0 := by simp at hn; omega
    simp [keysUpTo]
  | cons a l ih =>
    cases i with
    | zero => simp [keysUpTo]
    | succ i =>
      obtain ⟨n, rfl⟩ : ∃ n', n = n' + 1 := ⟨n - 1, by omega⟩
      rw [keysUpTo_cons_succ, sapAt_cons_succ, List.getElem?_cons_succ]
      exact ih (by simpa using hn) (by omega)

/-- A segment that starts at a key that knowledge at `sapAt m` of a node of our section holds,
with a member set that passes rule 4, is trusted; it moves the knowledge to the later of `m` and
`n`, and reports a change whenever `n` is the later. -/
theorem updateKnowledgeIfValid_segment_trusted (hK : ((s₀ :: later).map (·.sectionKey)).Nodup)
    {ourName : XorName} (hpre : ∀ s ∈ s₀ :: later, s.sectionPrefix.matches ourName)
    (hm : AtHistory s₀ later [s₀.sectionKey] m nk) (him : i ≤ m) (hin : i ≤ n)
    (hn : n ≤ later.length) {ms : Option (List NodeState)}
    (hms : NetworkKnowledge.membersCoverElders (sapAt s₀ later n) ms) :
    ∃ b nk', nk.updateKnowledgeIfValid (segmentUpdate s₀ later i n) ms ourName = .ok (b, nk') ∧
      AtHistory s₀ later [s₀.sectionKey] (max m n) nk' ∧ (m < n → b = true) := by
  have hlen : (keysUpTo s₀ later n).length = n + 1 := by simp [keysUpTo, hn]
  have hknown : (sapAt s₀ later i).sectionKey ∈ nk.knownKeys := List.mem_append_left _ (by
    rw [show nk.sectionChain = keysUpTo s₀ later m from hm.chain, key_mem_keysUpTo_iff hK (by omega)]
    exact him)
  have hver : nk.verifies (segmentUpdate s₀ later i n) := by
    simp [NetworkKnowledge.verifies, segmentUpdate, List.head?_drop, getElem?_keysUpTo hn hin,
      List.getLast?_drop, if_neg (show ¬ (keysUpTo s₀ later n).length ≤ i by omega),
      keysUpTo_getLast?, hknown, (keysUpTo_nodup s₀ later hK n).sublist (List.drop_sublist i _)]
  have hsec : (segmentUpdate s₀ later i n).signedSap.sectionPrefix.matches ourName :=
    hpre _ (sapAt_mem s₀ later n)
  obtain ⟨hat, hb⟩ := updateOurSection_segment_of_le hK hm him hin hn
  refine ⟨(nk.updateOurSection (segmentUpdate s₀ later i n)).1 ||
      ((nk.updateOurSection (segmentUpdate s₀ later i n)).2.mergeUpdatedMembers ms).1,
    ((nk.updateOurSection (segmentUpdate s₀ later i n)).2.mergeUpdatedMembers ms).2,
    by simp [NetworkKnowledge.updateKnowledgeIfValid_of_valid hver hms, NetworkKnowledge.applyUpdate,
      hsec],
    hat.congr (by simp) (by simp), fun h => by rw [hb h]; rfl⟩

end History

/-! ## A node and its handlers stay on the history -/

namespace MyNode

variable (env : AeEnv) (msg : AeMsg)

/-- The node's knowledge after one step of a handler: as it was, or what the handler's update,
checked against it under the lock, makes of it. -/
theorem handleAntiEntropyStep_knowledge (node : SharedNode) (st : Stage) :
    (handleAntiEntropyStep env msg node st).1.context.networkKnowledge =
        node.context.networkKnowledge ∨
      ∃ name b nk, node.context.networkKnowledge.updateKnowledgeIfValid msg.sectionTreeUpdate
          msg.kind.members? name = .ok (b, nk) ∧
        (handleAntiEntropyStep env msg node st).1.context.networkKnowledge = nk := by
  cases st with
  | started start =>
    rcases handleAntiEntropyStep_started env msg node start with
      ⟨h, -⟩ | ⟨_, _, nk, _, hlock, h, -⟩
    · exact .inl (by rw [h])
    · exact .inr ⟨_, _, nk, hlock, by rw [h]⟩
  | read _ _ u _ => cases u <;> exact .inl rfl
  | targetsSet start cmds latest => exact .inl (by rw [handleAntiEntropyStep_targetsSet])
  | _ => exact .inl rfl

variable {s₀ : SectionAuthorityProvider} {later : List SectionAuthorityProvider}
  {base : List BlsPublicKey} {m i n : Nat}

/-- One step of a handler whose message carries a segment to `sapAt n` leaves a node at `sapAt m`
at a position from `m` to the later of `m` and `n`. -/
theorem handleAntiEntropyStep_segment (hK : ((s₀ :: later).map (·.sectionKey)).Nodup)
    (hin : i ≤ n) (hn : n ≤ later.length) (hu : msg.sectionTreeUpdate = segmentUpdate s₀ later i n)
    {node : SharedNode} (hm : AtHistory s₀ later base m node.context.networkKnowledge) (st : Stage) :
    ∃ m', m ≤ m' ∧ m' ≤ max m n ∧
      AtHistory s₀ later base m' (handleAntiEntropyStep env msg node st).1.context.networkKnowledge := by
  rcases handleAntiEntropyStep_knowledge env msg node st with heq | ⟨name, c, nk, hup, heq⟩
  · exact ⟨m, le_rfl, le_max_left _ _, hm.congr (by rw [heq]) (by rw [heq])⟩
  · rw [hu] at hup
    rw [heq]
    exact updateKnowledgeIfValid_segment hK hm hin hn hup

end MyNode

namespace System

variable (env : AeEnv) (s₀ : SectionAuthorityProvider) (later : List SectionAuthorityProvider)

/-- The node holds a position of the history, and each handler's message carries a segment of
it. -/
structure OnHistory (sys : System) : Prop where
  node : ∃ n, AtHistory s₀ later [s₀.sectionKey] n sys.node.context.networkKnowledge
  handlers : ∀ p ∈ sys.handlers, IsSegment s₀ later p.1.sectionTreeUpdate

variable (M : Nat) in
/-- The node is at a position of the history up to `M`, and each handler's message carries a
segment of the history to a position up to `M`. -/
structure Within (sys : System) : Prop where
  node : ∃ m ≤ M, AtHistory s₀ later [s₀.sectionKey] m sys.node.context.networkKnowledge
  handlers : ∀ p ∈ sys.handlers, ∃ i n, i ≤ n ∧ n ≤ M ∧
    p.1.sectionTreeUpdate = segmentUpdate s₀ later i n

variable {s₀ later}

/-- On the history is within its last position. -/
theorem onHistory_iff_within {sys : System} :
    sys.OnHistory s₀ later ↔ sys.Within s₀ later later.length :=
  ⟨fun h => ⟨h.node.imp fun _ hm => ⟨hm.le, hm⟩, h.handlers⟩,
    fun h => ⟨h.node.imp fun _ hm => hm.2, h.handlers⟩⟩

/-- A step keeps the node and the handlers' messages within `M`: the step that writes the
knowledge applies a segment to a position up to `M`. -/
theorem step_within (hK : ((s₀ :: later).map (·.sectionKey)).Nodup) {M : Nat}
    (hM : M ≤ later.length) {sys : System} (h : sys.Within s₀ later M) (i : Nat) :
    (sys.step env i).Within s₀ later M := by
  cases hi : sys.handlers[i]? with
  | none =>
    simp only [step, hi]
    exact h
  | some p =>
    obtain ⟨msg, st⟩ := p
    obtain ⟨a, b, hab, hbM, hu⟩ := h.handlers _ (List.getElem?_mem hi)
    obtain ⟨m, hmM, hm⟩ := h.node
    have hfst := step_fst env sys i
    rw [step_of_getElem? env hi] at hfst ⊢
    refine ⟨?_, fun p hp => ?_⟩
    · obtain ⟨m', -, hm', hat⟩ :=
        MyNode.handleAntiEntropyStep_segment env msg hK hab (hbM.trans hM) hu hm st
      exact ⟨m', hm'.trans (max_le hmM hbM), hat⟩
    · obtain ⟨q, hq, hqp⟩ := List.mem_map.1 (hfst ▸ List.mem_map_of_mem Prod.fst hp)
      exact hqp ▸ h.handlers q hq

end System

/-! ## The network -/

/-- Modelled from the spec: the comms layer between the nodes of our section (§5). Each node
with its anti-entropy handlers in flight, and the AE messages on the wire, each with the index
of the node it is for. -/
structure Network where
  nodes : List System
  wire : List (Nat × AeMsg)

namespace Network

/-- What can happen next: a node sends, the comms layer delivers or loses a message, or a
handler takes its next step. -/
inductive Event where
  /-- Node `j` sends node `dst` an AE message, of `kind` and from `sender`, whose update
  `generate_ae_section_tree_update` makes from its knowledge under `key`. -/
  | send (j : Nat) (key : BlsPublicKey) (kind : AntiEntropyKind) (sender : Peer) (dst : Nat)
  /-- Message `i` reaches its node, which dispatches a handler for it. -/
  | deliver (i : Nat)
  /-- Message `i` is lost. -/
  | drop (i : Nat)
  /-- Handler `i` of node `j` takes its next atomic step. -/
  | step (j i : Nat)

/-- The node with a handler dispatched for `msg`. -/
def dispatch (msg : AeMsg) (sys : System) : System := ⟨sys.node, sys.handlers ++ [(msg, .dispatched)]⟩

variable (env : AeEnv)

/-- One event; an event naming no node or message changes nothing. -/
def apply (net : Network) : Event → Network
  | .send j key kind sender dst =>
    match net.nodes[j]? with
    | some sys => ⟨net.nodes, net.wire ++
        [(dst, ⟨generateAeSectionTreeUpdate sys.node.context.networkKnowledge (some key), kind, sender⟩)]⟩
    | none => net
  | .deliver i =>
    match net.wire[i]? with
    | some (dst, msg) => ⟨net.nodes.modify (dispatch msg) dst, net.wire.eraseIdx i⟩
    | none => net
  | .drop i => ⟨net.nodes, net.wire.eraseIdx i⟩
  | .step j i => ⟨net.nodes.modify (·.step env i) j, net.wire⟩

/-- The events of a run, in order. -/
def run (net : Network) (events : List Event) : Network := events.foldl (apply env) net

@[simp] theorem run_nil (net : Network) : net.run env [] = net := rfl

@[simp] theorem run_cons (net : Network) (e : Event) (events : List Event) :
    net.run env (e :: events) = (net.apply env e).run env events := rfl

theorem run_append (net : Network) (s t : List Event) :
    net.run env (s ++ t) = (net.run env s).run env t :=
  List.foldl_append _ _ _ _

/-- Handler `i` of node `j` stepped `k` times in a row: node `j` runs it alone. -/
theorem run_replicate_step (net : Network) (j i k : Nat) :
    net.run env (List.replicate k (.step j i)) =
      ⟨net.nodes.modify (·.run env (List.replicate k i)) j, net.wire⟩ := by
  induction k generalizing net with
  | zero => exact congrArg (Network.mk · net.wire) (List.modify_id j net.nodes).symm
  | succ k ih =>
    rw [List.replicate_succ, run_cons, ih]
    simp only [apply, List.modify_modify_eq]
    rfl

/-- What an event does to the nodes: nothing, a handler dispatched at one node, or one step of
a handler of one node. -/
theorem apply_nodes (net : Network) (e : Event) :
    (net.apply env e).nodes = net.nodes ∨
      (∃ msg k, (net.apply env e).nodes = net.nodes.modify (dispatch msg) k) ∨
      ∃ i j, (net.apply env e).nodes = net.nodes.modify (·.step env i) j := by
  cases e with
  | send j key kind sender dst =>
    simp only [apply]
    split <;> exact .inl rfl
  | deliver i =>
    simp only [apply]
    split
    · exact .inr (.inl ⟨_, _, rfl⟩)
    · exact .inl rfl
  | drop i => exact .inl rfl
  | step j i => exact .inr (.inr ⟨i, j, rfl⟩)

theorem apply_length (net : Network) (e : Event) :
    (net.apply env e).nodes.length = net.nodes.length := by
  rcases apply_nodes env net e with h | ⟨msg, k, h⟩ | ⟨i, k, h⟩ <;> simp [h]

theorem run_length (net : Network) (events : List Event) :
    (net.run env events).nodes.length = net.nodes.length := by
  induction events generalizing net with
  | nil => rfl
  | cons e es ih => rw [run_cons, ih, apply_length]

theorem forall_mem_modify {α : Type} {P : α → Prop} (f : α → α) {l : List α}
    (h : ∀ x ∈ l, P x) {k : Nat} (hf : ∀ x, l[k]? = some x → P (f x)) : ∀ y ∈ l.modify f k, P y := by
  intro y hy
  obtain ⟨j, hj⟩ := List.mem_iff_getElem?.1 hy
  rw [List.getElem?_modify] at hj
  cases hx : l[j]? with
  | none => simp [hx] at hj
  | some x =>
    simp only [hx, Option.map_eq_map, Option.map_some', Option.some.injEq] at hj
    split at hj <;> subst hj
    · subst k
      exact hf x hx
    · exact h x (List.getElem?_mem hx)

/-- Each node is still there after an event, and its chain has only grown. -/
theorem apply_chain (net : Network) (e : Event) {j : Nat} {a : System}
    (ha : net.nodes[j]? = some a) :
    ∃ b, (net.apply env e).nodes[j]? = some b ∧
      a.node.context.networkKnowledge.sectionChain <+: b.node.context.networkKnowledge.sectionChain := by
  have hmod : ∀ f : System → System, (∀ s, s.node.context.networkKnowledge.sectionChain <+:
      (f s).node.context.networkKnowledge.sectionChain) → ∀ k, ∃ b, (net.nodes.modify f k)[j]? = some b ∧
        a.node.context.networkKnowledge.sectionChain <+: b.node.context.networkKnowledge.sectionChain :=
    fun f hf k => ⟨if k = j then f a else a, by simp [List.getElem?_modify, ha],
      by split_ifs; exacts [hf a, List.prefix_refl _]⟩
  rcases apply_nodes env net e with h | ⟨msg, k, h⟩ | ⟨i, k, h⟩ <;> rw [h]
  · exact ⟨a, ha, List.prefix_refl _⟩
  · exact hmod (dispatch msg) (fun _ => List.prefix_refl _) k
  · exact hmod (·.step env i) (fun s => System.step_chain env s i) k

theorem run_chain (net : Network) (events : List Event) {j : Nat} {a : System}
    (ha : net.nodes[j]? = some a) :
    ∃ b, (net.run env events).nodes[j]? = some b ∧
      a.node.context.networkKnowledge.sectionChain <+: b.node.context.networkKnowledge.sectionChain := by
  induction events generalizing net a with
  | nil => exact ⟨a, ha, List.prefix_refl _⟩
  | cons e es ih =>
    obtain ⟨b, hb, hab⟩ := apply_chain env net e ha
    obtain ⟨c, hc, hbc⟩ := ih _ hb
    exact ⟨c, hc, hab.trans hbc⟩

variable (s₀ : SectionAuthorityProvider) (later : List SectionAuthorityProvider)

/-- Every node and its handlers are on the history, and every message on the wire carries a
segment of it. -/
structure OnHistory (net : Network) : Prop where
  nodes : ∀ sys ∈ net.nodes, sys.OnHistory s₀ later
  wire : ∀ q ∈ net.wire, IsSegment s₀ later q.2.sectionTreeUpdate

variable (M : Nat) in
/-- Every node and its handlers are within `M` (`System.Within`), and every message on the wire
carries a segment of the history to a position up to `M`. -/
structure Within (net : Network) : Prop where
  nodes : ∀ sys ∈ net.nodes, sys.Within s₀ later M
  wire : ∀ q ∈ net.wire, ∃ i n, i ≤ n ∧ n ≤ M ∧ q.2.sectionTreeUpdate = segmentUpdate s₀ later i n

variable {s₀ later}

theorem onHistory_iff_within {net : Network} :
    net.OnHistory s₀ later ↔ net.Within s₀ later later.length :=
  ⟨fun h => ⟨fun sys hs => System.onHistory_iff_within.1 (h.nodes sys hs), h.wire⟩,
    fun h => ⟨fun sys hs => System.onHistory_iff_within.2 (h.nodes sys hs), h.wire⟩⟩

/-- Every event keeps the network within `M`: a node sends what its knowledge, up to `M`,
generates, a delivered message is one that was on the wire, and a step is a step of a node. -/
theorem apply_within (hK : ((s₀ :: later).map (·.sectionKey)).Nodup) {M : Nat}
    (hM : M ≤ later.length) {net : Network} (h : net.Within s₀ later M) (e : Event) :
    (net.apply env e).Within s₀ later M := by
  have herase : ∀ i, ∀ q ∈ net.wire.eraseIdx i, ∃ a n, a ≤ n ∧ n ≤ M ∧
      q.2.sectionTreeUpdate = segmentUpdate s₀ later a n :=
    fun _ q hq => h.wire q (List.mem_of_mem_eraseIdx hq)
  cases e with
  | send j key kind sender dst =>
    cases hj : net.nodes[j]? with
    | none =>
      simp only [apply, hj]
      exact h
    | some sys =>
      simp only [apply, hj]
      obtain ⟨n, hnM, hn⟩ := (h.nodes sys (List.getElem?_mem hj)).node
      refine ⟨h.nodes, fun q hq => ?_⟩
      rcases List.mem_append.1 hq with hq | hq
      · exact h.wire q hq
      · obtain ⟨i, hi, he⟩ := generateAeSectionTreeUpdate_segment hn (some key)
        rw [List.mem_singleton.1 hq]
        exact ⟨i, n, hi, hnM, he⟩
  | deliver i =>
    cases hi : net.wire[i]? with
    | none =>
      simp only [apply, hi]
      exact h
    | some q =>
      obtain ⟨dst, msg⟩ := q
      simp only [apply, hi]
      have hmsg := h.wire _ (List.getElem?_mem hi)
      refine ⟨forall_mem_modify (dispatch msg) h.nodes
        (fun sys hs => ⟨(h.nodes sys (List.getElem?_mem hs)).node, fun p hp => ?_⟩), herase i⟩
      rcases List.mem_append.1 hp with hp | hp
      · exact (h.nodes sys (List.getElem?_mem hs)).handlers p hp
      · rw [List.mem_singleton.1 hp]
        exact hmsg
  | drop i => exact ⟨h.nodes, herase i⟩
  | step j i =>
    exact ⟨forall_mem_modify (fun sys : System => sys.step env i) h.nodes
      (fun sys hs => System.step_within env hK hM (h.nodes sys (List.getElem?_mem hs)) i), h.wire⟩

theorem run_within (hK : ((s₀ :: later).map (·.sectionKey)).Nodup) {M : Nat}
    (hM : M ≤ later.length) {net : Network} (h : net.Within s₀ later M) (events : List Event) :
    (net.run env events).Within s₀ later M := by
  induction events generalizing net with
  | nil => exact h
  | cons e es ih => exact ih (apply_within env hK hM h e)

theorem apply_onHistory (hK : ((s₀ :: later).map (·.sectionKey)).Nodup) {net : Network}
    (h : net.OnHistory s₀ later) (e : Event) : (net.apply env e).OnHistory s₀ later :=
  onHistory_iff_within.2 (apply_within env hK le_rfl (onHistory_iff_within.1 h) e)

theorem run_onHistory (hK : ((s₀ :: later).map (·.sectionKey)).Nodup) {net : Network}
    (h : net.OnHistory s₀ later) (events : List Event) : (net.run env events).OnHistory s₀ later :=
  onHistory_iff_within.2 (run_within env hK le_rfl (onHistory_iff_within.1 h) events)

/-- Over every run of a network whose nodes are on one history, with segments of it in flight:
every node holds a SAP of the history with the history's chain up to it, of any two nodes'
chains one is a prefix of the other, and each node's chain only grows. -/
theorem section_history_agreed_over_run (hK : ((s₀ :: later).map (·.sectionKey)).Nodup)
    (net : Network) (h : net.OnHistory s₀ later) (events : List Event) :
    (∀ sys ∈ (net.run env events).nodes, ∃ n ≤ later.length,
      sys.node.context.networkKnowledge.signedSap = sapAt s₀ later n ∧
        sys.node.context.networkKnowledge.sectionChain = keysUpTo s₀ later n) ∧
    (∀ a ∈ (net.run env events).nodes, ∀ b ∈ (net.run env events).nodes,
      a.node.context.networkKnowledge.sectionChain <+: b.node.context.networkKnowledge.sectionChain ∨
        b.node.context.networkKnowledge.sectionChain <+: a.node.context.networkKnowledge.sectionChain) ∧
    ∀ (j : Nat) (a : System), net.nodes[j]? = some a → ∃ b, (net.run env events).nodes[j]? = some b ∧
      a.node.context.networkKnowledge.sectionChain <+: b.node.context.networkKnowledge.sectionChain := by
  have hpos : ∀ sys ∈ (net.run env events).nodes, ∃ n ≤ later.length,
      sys.node.context.networkKnowledge.signedSap = sapAt s₀ later n ∧
        sys.node.context.networkKnowledge.sectionChain = keysUpTo s₀ later n := fun sys hs => by
    obtain ⟨n, hn⟩ := ((run_onHistory env hK h events).nodes sys hs).node
    exact ⟨n, hn.le, hn.sap, hn.chain⟩
  refine ⟨hpos, fun a ha b hb => ?_, fun j a ha => run_chain env net events ha⟩
  obtain ⟨m, -, -, hma⟩ := hpos a ha
  obtain ⟨n, -, -, hnb⟩ := hpos b hb
  rw [hma, hnb]
  rcases le_total m n with hmn | hnm
  · exact .inl (keysUpTo_prefix_of_le s₀ later hmn)
  · exact .inr (keysUpTo_prefix_of_le s₀ later hnm)

/-- Two nodes of the history of keys `0`, `1`, `2`: node `0` at key `0`, node `1` at key `2`,
and an Update to key `2` for node `0` on the wire. -/
def historyNetwork : Network :=
  ⟨[memberSystem [], ⟨⟨⟨1, newerKnowledge⟩, newerKnowledge.sectionTree, newerKnowledge.members⟩, []⟩],
    [(0, newerUpdate)]⟩

/-- Node `1` sends node `0` an Update under key `0`, both messages reach node `0`, and its two
handlers interleave. -/
def exchange : List Event :=
  [.send 1 0 (.update []) ⟨1, 0⟩ 0, .deliver 0, .deliver 0, .step 0 0, .step 0 1, .step 0 1, .step 0 0]

theorem historyNetwork_onHistory : historyNetwork.OnHistory (rootSap 0) System.laterSaps :=
  have h0 : AtHistory (rootSap 0) System.laterSaps [(rootSap 0).sectionKey] 0 memberKnowledge :=
    ⟨by decide, rfl, rfl⟩
  have h2 : AtHistory (rootSap 0) System.laterSaps [(rootSap 0).sectionKey] 2 newerKnowledge :=
    ⟨by decide, rfl, rfl⟩
  have hseg : IsSegment (rootSap 0) System.laterSaps newerUpdate.sectionTreeUpdate :=
    ⟨0, 2, by decide, by decide, rfl⟩
  ⟨fun sys hs => by
    simp only [historyNetwork, List.mem_cons, List.mem_singleton, List.not_mem_nil, or_false] at hs
    rcases hs with rfl | rfl
    · exact ⟨⟨0, h0⟩, by simp [memberSystem]⟩
    · exact ⟨⟨2, h2⟩, by simp⟩,
  fun q hq => by
    obtain rfl : q = (0, newerUpdate) := List.mem_singleton.1 hq
    exact hseg⟩

theorem exchanging_nodes_agree :
    ((rootSap 0 :: System.laterSaps).map (·.sectionKey)).Nodup ∧
      historyNetwork.OnHistory (rootSap 0) System.laterSaps ∧
      (∀ sys ∈ (historyNetwork.run quietEnv exchange).nodes, ∃ n ≤ System.laterSaps.length,
        sys.node.context.networkKnowledge.signedSap = sapAt (rootSap 0) System.laterSaps n ∧
          sys.node.context.networkKnowledge.sectionChain = keysUpTo (rootSap 0) System.laterSaps n) ∧
      (∀ a ∈ (historyNetwork.run quietEnv exchange).nodes,
        ∀ b ∈ (historyNetwork.run quietEnv exchange).nodes,
          a.node.context.networkKnowledge.sectionChain <+: b.node.context.networkKnowledge.sectionChain ∨
            b.node.context.networkKnowledge.sectionChain <+: a.node.context.networkKnowledge.sectionChain) ∧
      ∀ (j : Nat) (a : System), historyNetwork.nodes[j]? = some a →
        ∃ b, (historyNetwork.run quietEnv exchange).nodes[j]? = some b ∧
          a.node.context.networkKnowledge.sectionChain <+: b.node.context.networkKnowledge.sectionChain :=
  have hK : ((rootSap 0 :: System.laterSaps).map (·.sectionKey)).Nodup := by decide
  ⟨hK, historyNetwork_onHistory,
    section_history_agreed_over_run quietEnv hK historyNetwork historyNetwork_onHistory exchange⟩

/-- AE messages carry only what nodes know: over every run of a network on one history, from a
state where every node and every message is at a position up to `M`, no node goes past `M`. -/
theorem knowledge_never_invented (hK : ((s₀ :: later).map (·.sectionKey)).Nodup) (net : Network)
    {M : Nat} (hM : M ≤ later.length) (h : net.Within s₀ later M) (events : List Event) :
    ∀ sys ∈ (net.run env events).nodes, ∃ m ≤ M,
      sys.node.context.networkKnowledge.signedSap = sapAt s₀ later m ∧
        sys.node.context.networkKnowledge.sectionChain = keysUpTo s₀ later m := fun sys hs =>
  let ⟨m, hmM, hm⟩ := ((run_within env hK hM h events).nodes sys hs).node
  ⟨m, hmM, hm.sap, hm.chain⟩

/-- Node `0`, at key `0`, with a handler dispatched for the Update to key `1`. -/
def removalNetwork : Network := ⟨[memberSystem [removalUpdate]], []⟩

/-- Node `0` handles the Update to key `1` and sends itself an Update: it never passes key `1`,
although the history goes on to key `2`. -/
theorem removal_network_stays_below :
    ((rootSap 0 :: System.laterSaps).map (·.sectionKey)).Nodup ∧ 1 ≤ System.laterSaps.length ∧
      removalNetwork.Within (rootSap 0) System.laterSaps 1 ∧
      ∀ sys ∈ (removalNetwork.run quietEnv [.step 0 0, .send 0 0 (.update []) ⟨0, 0⟩ 0, .deliver 0,
          .step 0 0, .step 0 1, .step 0 0]).nodes, ∃ m ≤ 1,
        sys.node.context.networkKnowledge.signedSap = sapAt (rootSap 0) System.laterSaps m ∧
          sys.node.context.networkKnowledge.sectionChain = keysUpTo (rootSap 0) System.laterSaps m :=
  have hK : ((rootSap 0 :: System.laterSaps).map (·.sectionKey)).Nodup := by decide
  have hM : 1 ≤ System.laterSaps.length := by decide
  have h0 : AtHistory (rootSap 0) System.laterSaps [(rootSap 0).sectionKey] 0 memberKnowledge :=
    ⟨by decide, rfl, rfl⟩
  have hw : removalNetwork.Within (rootSap 0) System.laterSaps 1 :=
    ⟨fun sys hs => by
      obtain rfl : sys = memberSystem [removalUpdate] := List.mem_singleton.1 hs
      refine ⟨⟨0, Nat.zero_le _, h0⟩, fun p hp => ?_⟩
      obtain rfl : p = (removalUpdate, .dispatched) := List.mem_singleton.1 hp
      exact ⟨0, 1, Nat.zero_le _, le_rfl, rfl⟩,
    fun q hq => by simp [removalNetwork] at hq⟩
  ⟨hK, hM, hw, knowledge_never_invented quietEnv hK removalNetwork hM hw _⟩

end Network

end SafeNetwork
