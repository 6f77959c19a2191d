import SafeNetwork.Network

/-!
# Exchanges from the most advanced node bring the section into agreement

`section_history_agreed_over_run` says that the nodes of a section never disagree on its
history; here, that the protocol's own messages bring them to one point of it. A node that
knows another node's section key sends it an AE message generated under that key, as an elder
answers a probe (`handle_valid_node_msg`), with a member set that passes rule 4 against its
SAP. When the comms layer delivers it and the handler the receiver dispatches for it takes its
six steps (`exchangeEvents`):

* `handleAntiEntropyMsg_segment`: a handler run alone never moves its node past its message's
  SAP;
* `handleAntiEntropyMsg_catches_up`: the receiver ends at the later of its own position and the
  sender's; a message that proves a newer key is trusted, and the receiver adopts the sender's
  SAP;
* `nodes_agree_after_catch_up`: after the exchanges from the most advanced node to every node,
  one after another, every node holds that node's SAP and chain.

Under concurrency the same holds of each message on its own. A handler whose snapshot holds the
first key of its message's chain, and whose member set passes rule 4, is trusted at its check,
and then either finds nothing to apply, its snapshot being at the message's SAP or past it
already, or applies the update under the lock to the node, which holds that key too
(`handleAntiEntropyStep_absorbs`). Every other step on any node only moves nodes forward, so:

* `update_never_lost`: once such a handler is past its check, its node is at the message's SAP
  or past it, whatever runs on any node.
-/

namespace SafeNetwork

/-- Whether a handler is past its check: it has applied its update under the lock, found nothing
to apply, or failed. -/
def Stage.checked : Stage → Bool
  | .dispatched | .started _ => false
  | _ => true

namespace MyNode

variable (env : AeEnv) (msg : AeMsg)

theorem handleAntiEntropyStep_name (node : SharedNode) (st : Stage) :
    (handleAntiEntropyStep env msg node st).1.context.name = node.context.name := by
  cases st with
  | started start =>
    rcases handleAntiEntropyStep_started env msg node start with
      ⟨h, -⟩ | ⟨_, _, _, _, _, h, -⟩ <;> rw [h]
  | read _ _ u _ => cases u <;> rfl
  | targetsSet start cmds latest => rw [handleAntiEntropyStep_targetsSet]
  | _ => rfl

theorem handleAntiEntropyMsg_name (node : SharedNode) :
    (handleAntiEntropyMsg env msg node).1.context.name = node.context.name := by
  have h : ∀ k (q : SharedNode × Stage),
      ((fun p : SharedNode × Stage => handleAntiEntropyStep env msg p.1 p.2)^[k] q).1.context.name =
        q.1.context.name := by
    intro k
    induction k with
    | zero => exact fun _ => rfl
    | succ k ih => exact fun q => (ih _).trans (handleAntiEntropyStep_name env msg q.1 q.2)
  exact h 6 (node, .dispatched)

variable {s₀ : SectionAuthorityProvider} {later : List SectionAuthorityProvider}
  {base : List BlsPublicKey} {m i n : Nat}

/-- A handler whose message carries a segment to `sapAt n`, stepped `k` times with nothing in
between, moves its node from `sapAt m` no further than the later of `m` and `n`. -/
theorem iterate_handleAntiEntropyStep_segment (hK : ((s₀ :: later).map (·.sectionKey)).Nodup)
    (hin : i ≤ n) (hn : n ≤ later.length) (hu : msg.sectionTreeUpdate = segmentUpdate s₀ later i n)
    (k : Nat) (q : SharedNode × Stage) (hq : AtHistory s₀ later base m q.1.context.networkKnowledge) :
    ∃ m', m ≤ m' ∧ m' ≤ max m n ∧ AtHistory s₀ later base m'
      ((fun p : SharedNode × Stage => handleAntiEntropyStep env msg p.1 p.2)^[k] q).1.context.networkKnowledge := by
  induction k generalizing q m with
  | zero => exact ⟨m, le_rfl, le_max_left _ _, hq⟩
  | succ k ih =>
    obtain ⟨m₁, hm₁, hm₁n, hat⟩ := handleAntiEntropyStep_segment env msg hK hin hn hu hq q.2
    obtain ⟨m', hm', hm'n, hat'⟩ := ih _ hat
    exact ⟨m', hm₁.trans hm', hm'n.trans (max_le hm₁n (le_max_right _ _)), hat'⟩

theorem handleAntiEntropyMsg_segment (hK : ((s₀ :: later).map (·.sectionKey)).Nodup)
    (hin : i ≤ n) (hn : n ≤ later.length) (hu : msg.sectionTreeUpdate = segmentUpdate s₀ later i n)
    {node : SharedNode} (hm : AtHistory s₀ later base m node.context.networkKnowledge) :
    ∃ m', m ≤ m' ∧ m' ≤ max m n ∧
      AtHistory s₀ later base m' (handleAntiEntropyMsg env msg node).1.context.networkKnowledge :=
  iterate_handleAntiEntropyStep_segment env msg hK hin hn hu 6 (node, .dispatched) hm

/-- Run alone on a node at `sapAt m` whose name every SAP of the history matches, the handler of
an AE message that knowledge at `sapAt n` generates under the node's section key, with a member
set that passes rule 4, leaves the node at the later of `sapAt m` and `sapAt n`. -/
theorem handleAntiEntropyMsg_catches_up (hK : ((s₀ :: later).map (·.sectionKey)).Nodup)
    {node : SharedNode} (hpre : ∀ s ∈ s₀ :: later, s.sectionPrefix.matches node.context.name)
    (hm : AtHistory s₀ later base m node.context.networkKnowledge) {nk : NetworkKnowledge}
    (hn : AtHistory s₀ later [s₀.sectionKey] n nk) (kind : AntiEntropyKind)
    (hkind : NetworkKnowledge.membersCoverElders nk.signedSap kind.members?) (sender : Peer) :
    AtHistory s₀ later base (max m n) (handleAntiEntropyMsg env
      ⟨generateAeSectionTreeUpdate nk (some node.context.networkKnowledge.sectionKey), kind, sender⟩
      node).1.context.networkKnowledge := by
  obtain ⟨i, hin, hu⟩ := generateAeSectionTreeUpdate_segment hn (some node.context.networkKnowledge.sectionKey)
  obtain ⟨p, hmp, hpn, hat⟩ := handleAntiEntropyMsg_segment env
    ⟨generateAeSectionTreeUpdate nk (some node.context.networkKnowledge.sectionKey), kind, sender⟩
    hK hin hn.le hu hm
  by_cases hmn : m < n
  · -- the message proves a key newer than the node's: the node takes the sender's SAP
    have hkey : node.context.networkKnowledge.sectionKey = (sapAt s₀ later m).sectionKey :=
      congrArg (·.sectionKey) hm.sap
    have hchain : nk.sectionChain = keysUpTo s₀ later n := hn.chain
    have hmem : node.context.networkKnowledge.sectionKey ∈ nk.sectionChain := by
      rw [hchain, hkey, key_mem_keysUpTo_iff hK hm.le]
      exact hmn.le
    have hnodup : nk.sectionChain.Nodup := hchain ▸ keysUpTo_nodup s₀ later hK n
    obtain ⟨hlast, hspec, -⟩ :=
      @generateAeSectionTreeUpdate_spec nk node.context.networkKnowledge.sectionKey
    obtain ⟨hhead, hsuf⟩ := hspec hmem
    have hne : nk.sectionKey ≠ node.context.networkKnowledge.sectionKey := fun h =>
      hmn.ne' (sapAt_key_inj hK hn.le hm.le (by rw [← hkey, ← h]; exact congrArg (·.sectionKey) hn.sap.symm))
    have hsec : nk.signedSap.sectionPrefix.matches node.context.name := by
      rw [hn.sap]
      exact hpre _ (sapAt_mem s₀ later n)
    obtain ⟨nk', hup, hsap, -⟩ := @NetworkKnowledge.updateKnowledgeIfValid_adopts _ _ kind.members? _
      (hnodup.sublist hsuf.sublist) hhead hlast hne hsec hkind
    rw [handleAntiEntropyMsg_knowledge env
      ⟨generateAeSectionTreeUpdate nk (some node.context.networkKnowledge.sectionKey), kind, sender⟩ hup]
      at hat ⊢
    have hpn : p = n :=
      sapAt_key_inj hK hat.le hn.le (congrArg (·.sectionKey) (hat.sap.symm.trans (hsap.trans hn.sap)))
    rw [max_eq_right hmn.le, ← hpn]
    exact hat
  · rw [max_eq_left (not_lt.1 hmn)] at hpn ⊢
    obtain rfl : p = m := le_antisymm hpn hmp
    exact hat

theorem handleAntiEntropyStep_checked {node : SharedNode} {st : Stage} (h : st.checked) :
    (handleAntiEntropyStep env msg node st).2.checked := by
  cases st with
  | dispatched => cases h
  | started _ => cases h
  | read start cmds u latest => cases u <;> rfl
  | targetsSet start cmds latest =>
    rw [handleAntiEntropyStep_targetsSet]
    rfl
  | _ => rfl

/-- The check of a handler whose message carries a segment from the `i`-th key to `sapAt n`, and
whose snapshot, at `sapAt p₀` with `i ≤ p₀`, is of a node of our section now at `sapAt p`: the
handler is past its check, and the node at `sapAt n` or past it. Either the snapshot finds
nothing to apply, and is at `sapAt n` or past it already, or the update is applied under the
lock to the node, which holds the segment's first key too. -/
theorem handleAntiEntropyStep_absorbs (hK : ((s₀ :: later).map (·.sectionKey)).Nodup)
    (hin : i ≤ n) (hn : n ≤ later.length) (hu : msg.sectionTreeUpdate = segmentUpdate s₀ later i n)
    (hms : NetworkKnowledge.membersCoverElders (sapAt s₀ later n) msg.kind.members?)
    {start : NodeContext} (hpre : ∀ s ∈ s₀ :: later, s.sectionPrefix.matches start.name) {p₀ p : Nat}
    (hstart : AtHistory s₀ later [s₀.sectionKey] p₀ start.networkKnowledge) (hi : i ≤ p₀)
    (hle : p₀ ≤ p) {node : SharedNode}
    (hnode : AtHistory s₀ later [s₀.sectionKey] p node.context.networkKnowledge) :
    (handleAntiEntropyStep env msg node (.started start)).2.checked ∧ ∃ p', p ≤ p' ∧ n ≤ p' ∧
      AtHistory s₀ later [s₀.sectionKey] p'
        (handleAntiEntropyStep env msg node (.started start)).1.context.networkKnowledge := by
  obtain ⟨b, x, hx, -, hb⟩ :=
    updateKnowledgeIfValid_segment_trusted hK hpre hstart hi hin hn hms
  rw [← hu] at hx
  cases b
  · -- nothing to apply at the snapshot: it is at `sapAt n` or past it
    have hnp : n ≤ p₀ := by
      by_contra h
      exact Bool.false_ne_true (hb (by omega))
    simp only [handleAntiEntropyStep, hx]
    exact ⟨rfl, p, le_rfl, hnp.trans hle, hnode⟩
  · obtain ⟨u, nk, hlock, hat, -⟩ :=
      updateKnowledgeIfValid_segment_trusted hK hpre hnode (hi.trans hle) hin hn hms
    rw [← hu] at hlock
    simp only [handleAntiEntropyStep, hx, hlock]
    split
    all_goals exact ⟨rfl, max p n, le_max_left _ _, le_max_right _ _, hat⟩

end MyNode

namespace System

variable (env : AeEnv) {s₀ : SectionAuthorityProvider} {later : List SectionAuthorityProvider}

variable (s₀ later) in
/-- Handler `h` of the node is for `msg`; it holds a snapshot of the node at a position from `i`
on and no later than the node's, or it is past its check with the node at `sapAt n` or past
it. -/
def Tracks (i n : Nat) (msg : AeMsg) (h : Nat) (sys : System) : Prop :=
  ∃ st, sys.handlers[h]? = some (msg, st) ∧ ∃ p,
    AtHistory s₀ later [s₀.sectionKey] p sys.node.context.networkKnowledge ∧
    ((∃ start p₀, st = .started start ∧ start.name = sys.node.context.name ∧ i ≤ p₀ ∧ p₀ ≤ p ∧
        AtHistory s₀ later [s₀.sectionKey] p₀ start.networkKnowledge) ∨ (st.checked ∧ n ≤ p))

theorem step_name (sys : System) (i : Nat) :
    (sys.step env i).node.context.name = sys.node.context.name := by
  unfold step
  split
  · exact MyNode.handleAntiEntropyStep_name env _ _ _
  · rfl

/-- Any step keeps a tracked handler tracked: its own step is its check, or a later step, and
another handler's step moves the node forward. -/
theorem step_tracks (hK : ((s₀ :: later).map (·.sectionKey)).Nodup) {sys : System}
    (hsys : sys.OnHistory s₀ later)
    (hpre : ∀ s ∈ s₀ :: later, s.sectionPrefix.matches sys.node.context.name) {i n hd : Nat}
    {msg : AeMsg} (hin : i ≤ n) (hn : n ≤ later.length)
    (hu : msg.sectionTreeUpdate = segmentUpdate s₀ later i n)
    (hms : NetworkKnowledge.membersCoverElders (sapAt s₀ later n) msg.kind.members?)
    (h : sys.Tracks s₀ later i n msg hd) (j : Nat) : (sys.step env j).Tracks s₀ later i n msg hd := by
  obtain ⟨st, hst, p, hp, hcase⟩ := h
  cases hj : sys.handlers[j]? with
  | none =>
    simp only [step, hj]
    exact ⟨st, hst, p, hp, hcase⟩
  | some q =>
    obtain ⟨msg', st'⟩ := q
    rw [step_of_getElem? env hj]
    by_cases hjd : j = hd
    · subst hjd
      obtain ⟨rfl, rfl⟩ : msg' = msg ∧ st' = st := by simpa [hst] using hj.symm
      refine ⟨_, List.getElem?_set_self (List.getElem?_eq_some_iff.1 hst).1, ?_⟩
      rcases hcase with ⟨start, p₀, rfl, hname, hi, hle, hstart⟩ | ⟨hc, hnp⟩
      · obtain ⟨hc', p', -, hnp', hat⟩ := MyNode.handleAntiEntropyStep_absorbs env msg' hK hin hn hu
          hms (hname ▸ hpre) hstart hi hle hp
        exact ⟨p', hat, .inr ⟨hc', hnp'⟩⟩
      · obtain ⟨p', hpp', -, hat⟩ := MyNode.handleAntiEntropyStep_segment env msg' hK hin hn hu hp st'
        exact ⟨p', hat, .inr ⟨MyNode.handleAntiEntropyStep_checked env msg' hc, hnp.trans hpp'⟩⟩
    · -- another handler's step: ours is as it was, and the node only moves forward
      obtain ⟨a, b, hab, hb, hu'⟩ := hsys.handlers _ (List.getElem?_mem hj)
      obtain ⟨p', hpp', -, hat⟩ := MyNode.handleAntiEntropyStep_segment env msg' hK hab hb hu' hp st'
      refine ⟨st, by rw [List.getElem?_set_ne hjd]; exact hst, p', hat, ?_⟩
      rcases hcase with ⟨start, p₀, rfl, hname, hi, hle, hstart⟩ | ⟨hc, hnp⟩
      · exact .inl ⟨start, p₀, rfl,
          hname.trans (MyNode.handleAntiEntropyStep_name env msg' sys.node _).symm, hi, hle.trans hpp', hstart⟩
      · exact .inr ⟨hc, hnp.trans hpp'⟩

end System

namespace Network

variable (env : AeEnv)

/-- Node `a` brings node `j` up to date: it sends node `j` an AE message under node `j`'s section
key, the comms layer delivers it, and the handler node `j` dispatches for it takes its six steps
with nothing in between. -/
def exchangeEvents (net : Network) (a j : Nat) (kind : AntiEntropyKind) (sender : Peer) :
    List Event :=
  match net.nodes[j]? with
  | some sys => .send a sys.node.context.networkKnowledge.sectionKey kind sender j ::
      .deliver net.wire.length :: List.replicate 6 (.step j sys.handlers.length)
  | none => []

/-- Node `a`'s exchanges with the nodes `js`, one after another. -/
def catchUpEvents (net : Network) (a : Nat) (kind : AntiEntropyKind) (sender : Peer) :
    List Nat → List Event
  | [] => []
  | j :: js => exchangeEvents net a j kind sender ++
      catchUpEvents (net.run env (exchangeEvents net a j kind sender)) a kind sender js

/-- A node with a handler dispatched for `msg` that then takes its six steps is the node the
handler run alone leaves. -/
theorem dispatch_run_node (msg : AeMsg) (sys : System) :
    ((dispatch msg sys).run env (List.replicate 6 sys.handlers.length)).node =
      (MyNode.handleAntiEntropyMsg env msg sys.node).1 := by
  rw [System.run_replicate env (show (dispatch msg sys).handlers[sys.handlers.length]? =
    some (msg, .dispatched) from List.getElem?_concat_length _ _) 6]
  rfl

/-- An exchange changes node `j` alone: it is the node `j` that the handler of the message leaves. -/
theorem run_exchangeEvents {net : Network} {a j : Nat} {sa sj : System}
    (ha : net.nodes[a]? = some sa) (hj : net.nodes[j]? = some sj) (kind : AntiEntropyKind)
    (sender : Peer) :
    (net.run env (exchangeEvents net a j kind sender)).nodes = net.nodes.modify (fun s =>
      (dispatch ⟨generateAeSectionTreeUpdate sa.node.context.networkKnowledge
        (some sj.node.context.networkKnowledge.sectionKey), kind, sender⟩ s).run env
        (List.replicate 6 sj.handlers.length)) j := by
  simp only [exchangeEvents, hj, run_cons, apply, ha, List.getElem?_concat_length,
    run_replicate_step, List.modify_modify_eq, Function.comp_def]

variable {s₀ : SectionAuthorityProvider} {later : List SectionAuthorityProvider}

variable (s₀ later) in
/-- What the exchanges from node `a`, at `sapAt n`, keep: the network is on the history, every
SAP of the history matches every node's name, node `a` is at `sapAt n`, and no node is past
it. -/
structure Leads (a n : Nat) (net : Network) : Prop where
  onHistory : net.OnHistory s₀ later
  names : ∀ sys ∈ net.nodes, ∀ s ∈ s₀ :: later, s.sectionPrefix.matches sys.node.context.name
  leader : ∃ sa, net.nodes[a]? = some sa ∧
    AtHistory s₀ later [s₀.sectionKey] n sa.node.context.networkKnowledge
  below : ∀ sys ∈ net.nodes, ∃ m ≤ n,
    AtHistory s₀ later [s₀.sectionKey] m sys.node.context.networkKnowledge

/-- One exchange from node `a` keeps what the exchanges keep, brings node `j` to `sapAt n`,
and leaves every node that was there at `sapAt n`. -/
theorem exchange_leads (hK : ((s₀ :: later).map (·.sectionKey)).Nodup) {net : Network}
    {a n : Nat} (h : net.Leads s₀ later a n) (j : Nat) (kind : AntiEntropyKind)
    (hkind : NetworkKnowledge.membersCoverElders (sapAt s₀ later n) kind.members?) (sender : Peer) :
    (net.run env (exchangeEvents net a j kind sender)).Leads s₀ later a n ∧
      ∀ k s, net.nodes[k]? = some s → ∃ s', (net.run env (exchangeEvents net a j kind sender)).nodes[k]? = some s' ∧
        (k = j ∨ AtHistory s₀ later [s₀.sectionKey] n s.node.context.networkKnowledge →
          AtHistory s₀ later [s₀.sectionKey] n s'.node.context.networkKnowledge) := by
  cases hj : net.nodes[j]? with
  | none =>
    have hnil : exchangeEvents net a j kind sender = [] := by simp [exchangeEvents, hj]
    rw [hnil, run_nil]
    refine ⟨h, fun k s hk => ⟨s, hk, fun hor => hor.resolve_left ?_⟩⟩
    rintro rfl
    simp [hj] at hk
  | some sj =>
    obtain ⟨sa, ha, hA⟩ := h.leader
    obtain ⟨f, hf⟩ : ∃ f : System → System, f = fun s => (dispatch ⟨generateAeSectionTreeUpdate
        sa.node.context.networkKnowledge (some sj.node.context.networkKnowledge.sectionKey), kind,
        sender⟩ s).run env (List.replicate 6 sj.handlers.length) := ⟨_, rfl⟩
    have hnodes : (net.run env (exchangeEvents net a j kind sender)).nodes = net.nodes.modify f j := by
      rw [hf, run_exchangeEvents env ha hj kind sender]
    have hsj : sj ∈ net.nodes := List.getElem?_mem hj
    have hjn : AtHistory s₀ later [s₀.sectionKey] n (f sj).node.context.networkKnowledge := by
      obtain ⟨m, hmn, hm⟩ := h.below sj hsj
      rw [hf, dispatch_run_node, ← max_eq_right hmn]
      exact MyNode.handleAntiEntropyMsg_catches_up env hK (h.names sj hsj) hm hA kind
        (hA.sap ▸ hkind) sender
    have hget : ∀ k s, net.nodes[k]? = some s →
        (net.run env (exchangeEvents net a j kind sender)).nodes[k]? = some (if j = k then f s else s) :=
      fun k s hk => by simp [hnodes, List.getElem?_modify, hk]
    have hatj : ∀ x, net.nodes[j]? = some x → x = sj := fun x hx => Option.some.inj (hx.symm.trans hj)
    refine ⟨⟨run_onHistory env hK h.onHistory _, ?_, ?_, ?_⟩, fun k s hk => ⟨_, hget k s hk, ?_⟩⟩
    · rw [hnodes]
      refine forall_mem_modify f h.names fun x hx => ?_
      obtain rfl := hatj x hx
      have hname : (f x).node.context.name = x.node.context.name := by
        rw [hf, dispatch_run_node]
        exact MyNode.handleAntiEntropyMsg_name env _ x.node
      exact hname ▸ h.names x hsj
    · refine ⟨_, hget a sa ha, ?_⟩
      split_ifs with hja
      · subst hja
        obtain rfl := hatj sa ha
        exact hjn
      · exact hA
    · rw [hnodes]
      exact forall_mem_modify f h.below fun x hx => hatj x hx ▸ ⟨n, le_rfl, hjn⟩
    · split_ifs with hjk
      · subst hjk
        obtain rfl := hatj s hk
        exact fun _ => hjn
      · exact fun hor => hor.resolve_left (Ne.symm hjk)

/-- The exchanges from node `a` with the nodes `js` keep what the exchanges keep, and bring each
node of `js` to `sapAt n`, leaving there every node that was there. -/
theorem catchUp_leads (hK : ((s₀ :: later).map (·.sectionKey)).Nodup) (js : List Nat)
    {net : Network} {a n : Nat} (h : net.Leads s₀ later a n) (kind : AntiEntropyKind)
    (hkind : NetworkKnowledge.membersCoverElders (sapAt s₀ later n) kind.members?) (sender : Peer) :
    (net.run env (catchUpEvents env net a kind sender js)).Leads s₀ later a n ∧
      ∀ k s, net.nodes[k]? = some s → ∃ s', (net.run env (catchUpEvents env net a kind sender js)).nodes[k]? = some s' ∧
        (k ∈ js ∨ AtHistory s₀ later [s₀.sectionKey] n s.node.context.networkKnowledge →
          AtHistory s₀ later [s₀.sectionKey] n s'.node.context.networkKnowledge) := by
  induction js generalizing net with
  | nil => exact ⟨h, fun k s hk => ⟨s, hk, fun hor => hor.resolve_left (List.not_mem_nil k)⟩⟩
  | cons j js ih =>
    obtain ⟨h₁, hstep⟩ := exchange_leads env hK h j kind hkind sender
    obtain ⟨h₂, hrest⟩ := ih h₁
    rw [catchUpEvents, run_append]
    refine ⟨h₂, fun k s hk => ?_⟩
    obtain ⟨s₁, hk₁, himp⟩ := hstep k s hk
    obtain ⟨s', hk', himp'⟩ := hrest k s₁ hk₁
    refine ⟨s', hk', fun hor => ?_⟩
    by_cases hkjs : k ∈ js
    · exact himp' (.inl hkjs)
    · refine himp' (.inr (himp ?_))
      rcases hor with hor | hor
      · exact .inl ((List.mem_cons.1 hor).resolve_right hkjs)
      · exact .inr hor

/-- From any network on one history whose SAPs all match every node's name: after the exchanges
from the node with the longest chain to every node, one after another, each with a member set
that passes rule 4 against that node's SAP, every node holds that node's SAP and chain. -/
theorem nodes_agree_after_catch_up (hK : ((s₀ :: later).map (·.sectionKey)).Nodup)
    (net : Network) (h : net.OnHistory s₀ later)
    (hpre : ∀ sys ∈ net.nodes, ∀ s ∈ s₀ :: later, s.sectionPrefix.matches sys.node.context.name)
    (a : Nat) (sa : System) (ha : net.nodes[a]? = some sa)
    (hmax : ∀ sys ∈ net.nodes, sys.node.context.networkKnowledge.sectionChain <+:
      sa.node.context.networkKnowledge.sectionChain)
    (kind : AntiEntropyKind)
    (hkind : NetworkKnowledge.membersCoverElders sa.node.context.networkKnowledge.signedSap kind.members?)
    (sender : Peer) :
    ∀ sys ∈ (net.run env (catchUpEvents env net a kind sender (List.range net.nodes.length))).nodes,
      sys.node.context.networkKnowledge.signedSap = sa.node.context.networkKnowledge.signedSap ∧
        sys.node.context.networkKnowledge.sectionChain = sa.node.context.networkKnowledge.sectionChain := by
  obtain ⟨n, hn⟩ := (h.nodes sa (List.getElem?_mem ha)).node
  have hbelow : ∀ sys ∈ net.nodes, ∃ m ≤ n,
      AtHistory s₀ later [s₀.sectionKey] m sys.node.context.networkKnowledge := fun sys hs => by
    obtain ⟨m, hm⟩ := (h.nodes sys hs).node
    have hlen := (hmax sys hs).length_le
    rw [hm.chain, hn.chain] at hlen
    simp only [List.length_append, List.length_singleton, List.length_map, List.length_take,
      min_eq_left hm.le, min_eq_left hn.le] at hlen
    exact ⟨m, by omega, hm⟩
  intro sys hs
  obtain ⟨k, hk⟩ := List.mem_iff_getElem?.1 hs
  have hlt : k < net.nodes.length := by
    rw [← run_length env net (catchUpEvents env net a kind sender (List.range net.nodes.length))]
    exact (List.getElem?_eq_some_iff.1 hk).1
  obtain ⟨s', hk', hat⟩ := (catchUp_leads env hK (List.range net.nodes.length)
    ⟨h, hpre, ⟨sa, ha, hn⟩, hbelow⟩ kind (hn.sap ▸ hkind) sender).2 k _ (List.getElem?_eq_getElem hlt)
  obtain rfl : s' = sys := Option.some.inj (hk'.symm.trans hk)
  have hat := hat (.inl (List.mem_range.2 hlt))
  exact ⟨hat.sap.trans hn.sap.symm, hat.chain.trans hn.chain.symm⟩

/-! ## An update past its check is never lost -/

variable (s₀ later) in
/-- Handler `h` of node `j` is tracked (`System.Tracks`). -/
def Tracks (i n : Nat) (msg : AeMsg) (j h : Nat) (net : Network) : Prop :=
  ∃ sys, net.nodes[j]? = some sys ∧ sys.Tracks s₀ later i n msg h

theorem apply_names {net : Network}
    (hpre : ∀ sys ∈ net.nodes, ∀ s ∈ s₀ :: later, s.sectionPrefix.matches sys.node.context.name)
    (e : Event) :
    ∀ sys ∈ (net.apply env e).nodes, ∀ s ∈ s₀ :: later, s.sectionPrefix.matches sys.node.context.name := by
  rcases apply_nodes env net e with h | ⟨msg, k, h⟩ | ⟨i, k, h⟩ <;> rw [h]
  · exact hpre
  · exact forall_mem_modify _ hpre fun x hx => hpre x (List.getElem?_mem hx)
  · exact forall_mem_modify _ hpre fun x hx => System.step_name env x i ▸ hpre x (List.getElem?_mem hx)

theorem apply_tracks (hK : ((s₀ :: later).map (·.sectionKey)).Nodup) {net : Network}
    (hon : net.OnHistory s₀ later)
    (hpre : ∀ sys ∈ net.nodes, ∀ s ∈ s₀ :: later, s.sectionPrefix.matches sys.node.context.name)
    {i n j hd : Nat} {msg : AeMsg} (hin : i ≤ n) (hn : n ≤ later.length)
    (hu : msg.sectionTreeUpdate = segmentUpdate s₀ later i n)
    (hms : NetworkKnowledge.membersCoverElders (sapAt s₀ later n) msg.kind.members?)
    (h : net.Tracks s₀ later i n msg j hd) (e : Event) : (net.apply env e).Tracks s₀ later i n msg j hd := by
  obtain ⟨sys, hj, st, hst, hrest⟩ := h
  have hsys := List.getElem?_mem hj
  rcases apply_nodes env net e with he | ⟨msg', k, he⟩ | ⟨i', k, he⟩ <;> rw [Tracks, he]
  · exact ⟨sys, hj, st, hst, hrest⟩
  · -- a delivery adds a handler after ours and leaves the node as it is
    refine ⟨if k = j then dispatch msg' sys else sys, by simp [List.getElem?_modify, hj], st, ?_, ?_⟩
    · split_ifs
      · exact (List.getElem?_append_left (List.getElem?_eq_some_iff.1 hst).1).trans hst
      · exact hst
    · split_ifs <;> exact hrest
  · refine ⟨if k = j then sys.step env i' else sys, by simp [List.getElem?_modify, hj], ?_⟩
    split_ifs
    · exact System.step_tracks env hK (hon.nodes sys hsys) (hpre sys hsys) hin hn hu hms
        ⟨st, hst, hrest⟩ i'
    · exact ⟨st, hst, hrest⟩

theorem run_tracks (hK : ((s₀ :: later).map (·.sectionKey)).Nodup) {i n j hd : Nat} {msg : AeMsg}
    (hin : i ≤ n) (hn : n ≤ later.length) (hu : msg.sectionTreeUpdate = segmentUpdate s₀ later i n)
    (hms : NetworkKnowledge.membersCoverElders (sapAt s₀ later n) msg.kind.members?)
    {net : Network} (hon : net.OnHistory s₀ later)
    (hpre : ∀ sys ∈ net.nodes, ∀ s ∈ s₀ :: later, s.sectionPrefix.matches sys.node.context.name)
    (h : net.Tracks s₀ later i n msg j hd) (events : List Event) :
    (net.run env events).Tracks s₀ later i n msg j hd := by
  induction events generalizing net with
  | nil => exact h
  | cons e es ih =>
    exact ih (apply_onHistory env hK hon e) (apply_names env hpre e)
      (apply_tracks env hK hon hpre hin hn hu hms h e)

/-- No update is lost to a race, on any node of the network: take a handler, just dispatched,
of an AE message whose update runs along the history from the `i`-th key to `sapAt n`, with a
member set that passes rule 4, on a node that holds the `i`-th key. Once it has taken its
snapshot, then whatever runs on any node, at every point where the handler is past its check
its node is at `sapAt n` or past it. -/
theorem update_never_lost (hK : ((s₀ :: later).map (·.sectionKey)).Nodup) (net : Network)
    (h : net.OnHistory s₀ later)
    (hpre : ∀ sys ∈ net.nodes, ∀ s ∈ s₀ :: later, s.sectionPrefix.matches sys.node.context.name)
    {j hd : Nat} {sys : System} {msg : AeMsg} {i n p₀ : Nat} (hj : net.nodes[j]? = some sys)
    (hh : sys.handlers[hd]? = some (msg, .dispatched))
    (hu : msg.sectionTreeUpdate = segmentUpdate s₀ later i n)
    (hcover : NetworkKnowledge.membersCoverElders msg.sectionTreeUpdate.signedSap msg.kind.members?)
    (hin : i ≤ n) (hn : n ≤ later.length)
    (hp₀ : AtHistory s₀ later [s₀.sectionKey] p₀ sys.node.context.networkKnowledge) (hi : i ≤ p₀)
    (events : List Event) :
    ∀ (sys' : System) (st : Stage), (net.run env (.step j hd :: events)).nodes[j]? = some sys' →
      sys'.handlers[hd]? = some (msg, st) → st.checked →
        ∃ p, n ≤ p ∧ AtHistory s₀ later [s₀.sectionKey] p sys'.node.context.networkKnowledge := by
  intro sys' st hj' hst hc
  have hms : NetworkKnowledge.membersCoverElders (sapAt s₀ later n) msg.kind.members? := by
    rw [hu] at hcover
    exact hcover
  have hsnap : (net.apply env (.step j hd)).Tracks s₀ later i n msg j hd := by
    refine ⟨sys.step env hd, by simp [apply, List.getElem?_modify, hj], ?_⟩
    rw [System.step_of_getElem? env hh]
    exact ⟨_, List.getElem?_set_self (List.getElem?_eq_some_iff.1 hh).1, p₀, hp₀,
      .inl ⟨sys.node.context, p₀, rfl, rfl, hi, le_rfl, hp₀⟩⟩
  obtain ⟨sys'', hj'', st', hst', p, hp, hcase⟩ := run_tracks env hK hin hn hu hms
    (apply_onHistory env hK h _) (apply_names env hpre _) hsnap events
  obtain rfl : sys'' = sys' := Option.some.inj (hj''.symm.trans hj')
  obtain rfl : st' = st := (Prod.mk.inj (Option.some.inj (hst'.symm.trans hst))).2
  rcases hcase with ⟨start, p₀, rfl, -⟩ | ⟨-, hnp⟩
  · cases hc
  · exact ⟨p, hnp, hp⟩

/-- Node `1` of `historyNetwork`, at key `2`. -/
def newerSystem : System :=
  ⟨⟨⟨1, newerKnowledge⟩, newerKnowledge.sectionTree, newerKnowledge.members⟩, []⟩

/-- Node `1`, at key `2`, sends each node of `historyNetwork` an Update under its key: node `0`,
at key `0`, ends at key `2` with node `1`. -/
theorem history_network_catches_up :
    ((rootSap 0 :: System.laterSaps).map (·.sectionKey)).Nodup ∧
      historyNetwork.OnHistory (rootSap 0) System.laterSaps ∧
      (∀ sys ∈ historyNetwork.nodes, ∀ s ∈ rootSap 0 :: System.laterSaps,
        s.sectionPrefix.matches sys.node.context.name) ∧
      historyNetwork.nodes[1]? = some newerSystem ∧
      (∀ sys ∈ historyNetwork.nodes, sys.node.context.networkKnowledge.sectionChain <+:
        newerSystem.node.context.networkKnowledge.sectionChain) ∧
      NetworkKnowledge.membersCoverElders newerSystem.node.context.networkKnowledge.signedSap
        (AntiEntropyKind.update newerKnowledge.members).members? ∧
      ∀ sys ∈ (historyNetwork.run quietEnv (catchUpEvents quietEnv historyNetwork 1
          (.update newerKnowledge.members) ⟨1, 0⟩ (List.range historyNetwork.nodes.length))).nodes,
        sys.node.context.networkKnowledge.signedSap = newerSystem.node.context.networkKnowledge.signedSap ∧
          sys.node.context.networkKnowledge.sectionChain =
            newerSystem.node.context.networkKnowledge.sectionChain :=
  have hK : ((rootSap 0 :: System.laterSaps).map (·.sectionKey)).Nodup := by decide
  have hpre : ∀ sys ∈ historyNetwork.nodes, ∀ s ∈ rootSap 0 :: System.laterSaps,
      s.sectionPrefix.matches sys.node.context.name := by
    simp [System.laterSaps, rootSap, Prefix.matches]
  have hmax : ∀ sys ∈ historyNetwork.nodes, sys.node.context.networkKnowledge.sectionChain <+:
      newerSystem.node.context.networkKnowledge.sectionChain := by
    simp only [historyNetwork, List.mem_cons, List.mem_singleton, List.not_mem_nil, or_false]
    rintro sys (rfl | rfl)
    · exact ⟨[1, 2], rfl⟩
    · exact List.prefix_refl _
  have hkind : NetworkKnowledge.membersCoverElders newerSystem.node.context.networkKnowledge.signedSap
      (AntiEntropyKind.update newerKnowledge.members).members? := rfl
  ⟨hK, historyNetwork_onHistory, hpre, rfl, hmax, hkind, nodes_agree_after_catch_up quietEnv hK
    historyNetwork historyNetwork_onHistory hpre 1 newerSystem rfl hmax _ hkind _⟩

/-- Node `0`, at key `0`, with a handler dispatched for an Update to key `2` that runs from
key `0`, and node `1` at key `2`. -/
def racingNetwork : Network := ⟨[memberSystem [newerUpdate], newerSystem], []⟩

/-- Node `0`'s handler takes its snapshot, then the nodes exchange and step as they will: the
Update is never lost once the handler is past its check. -/
theorem racing_update_kept :
    ((rootSap 0 :: System.laterSaps).map (·.sectionKey)).Nodup ∧
      racingNetwork.OnHistory (rootSap 0) System.laterSaps ∧
      (∀ sys ∈ racingNetwork.nodes, ∀ s ∈ rootSap 0 :: System.laterSaps,
        s.sectionPrefix.matches sys.node.context.name) ∧
      racingNetwork.nodes[0]? = some (memberSystem [newerUpdate]) ∧
      (memberSystem [newerUpdate]).handlers[0]? = some (newerUpdate, .dispatched) ∧
      newerUpdate.sectionTreeUpdate = segmentUpdate (rootSap 0) System.laterSaps 0 2 ∧
      NetworkKnowledge.membersCoverElders newerUpdate.sectionTreeUpdate.signedSap
        newerUpdate.kind.members? ∧ 0 ≤ 2 ∧ 2 ≤ System.laterSaps.length ∧
      AtHistory (rootSap 0) System.laterSaps [(rootSap 0).sectionKey] 0
        (memberSystem [newerUpdate]).node.context.networkKnowledge ∧ 0 ≤ 0 ∧
      ∀ (sys' : System) (st : Stage), (racingNetwork.run quietEnv (.step 0 0 ::
          [.send 1 0 (.update []) ⟨1, 0⟩ 0, .deliver 0, .step 0 1, .step 0 0, .step 0 1])).nodes[0]? =
            some sys' →
        sys'.handlers[0]? = some (newerUpdate, st) → st.checked →
          ∃ p, 2 ≤ p ∧ AtHistory (rootSap 0) System.laterSaps [(rootSap 0).sectionKey] p
            sys'.node.context.networkKnowledge :=
  have hK : ((rootSap 0 :: System.laterSaps).map (·.sectionKey)).Nodup := by decide
  have h0 : AtHistory (rootSap 0) System.laterSaps [(rootSap 0).sectionKey] 0 memberKnowledge :=
    ⟨by decide, rfl, rfl⟩
  have h2 : AtHistory (rootSap 0) System.laterSaps [(rootSap 0).sectionKey] 2 newerKnowledge :=
    ⟨by decide, rfl, rfl⟩
  have hseg : IsSegment (rootSap 0) System.laterSaps newerUpdate.sectionTreeUpdate :=
    ⟨0, 2, by decide, by decide, rfl⟩
  have hon : racingNetwork.OnHistory (rootSap 0) System.laterSaps :=
    ⟨fun sys hs => by
      simp only [racingNetwork, List.mem_cons, List.mem_singleton, List.not_mem_nil, or_false] at hs
      rcases hs with rfl | rfl
      · exact ⟨⟨0, h0⟩, by simpa [memberSystem] using hseg⟩
      · exact ⟨⟨2, h2⟩, by simp [newerSystem]⟩,
    fun q hq => by simp [racingNetwork] at hq⟩
  have hpre : ∀ sys ∈ racingNetwork.nodes, ∀ s ∈ rootSap 0 :: System.laterSaps,
      s.sectionPrefix.matches sys.node.context.name := by
    simp [System.laterSaps, rootSap, Prefix.matches]
  have hn : 2 ≤ System.laterSaps.length := by decide
  have hcover : NetworkKnowledge.membersCoverElders newerUpdate.sectionTreeUpdate.signedSap
      newerUpdate.kind.members? := rfl
  ⟨hK, hon, hpre, rfl, rfl, rfl, hcover, Nat.zero_le _, hn, h0, le_rfl,
    update_never_lost quietEnv hK racingNetwork hon hpre rfl rfl rfl hcover (Nat.zero_le _) hn h0
      le_rfl _⟩

end Network

end SafeNetwork
