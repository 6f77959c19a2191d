import SafeNetwork.Concurrent

/-!
# AE Updates to the sibling section after a split

`MyNode::send_ae_update_to_nodes` builds one `SendMsg` of an AE Update: the context's signed
SAP with a proof chain from a given key, and the context's members.
`MyNode::send_updates_to_sibling_section` sends one to the elders of the sibling section
that were not our elders, given the context from before a split. It reads nothing but that
context: the node itself (`&self`) is not read.

* `sibling_update_from_pre_split_context`: every command it returns is the Update of the
  pre-split SAP, with a proof chain from the pre-split key, to the elders of the pre-split
  tree's entry for the sibling of the pre-split prefix; after a split of the root, whose
  sibling is itself, it returns none;
* `root_split_skips_promoted_sibling`: a root split after which the sibling section of
  prefix `1` has an elder that was not ours, and no Update is sent to it.

The other two Updates run from a key the recipients are expected to hold to our section key.
`MyNode::send_ae_update_to_our_section` sends one, under the parent of our key, to our
section's other members; the `AntiEntropyProbe` arm of `MyNode::handle_valid_node_msg`
answers an elder's prober with one under the key the probe carries. Both carry our members,
which pass rule 4 against our SAP when our elders are among them (`EldersAreMembers`, §3).
Handled alone by a member of our section (`BringsUpFrom`), such an Update then brings a member
still at that key to our SAP and our key, and leaves a member that does not know the key as it
is:

* `probe_answer_brings_prober_up_to_date`: the answer to a probe under a key of our chain;
* `our_section_update_from_previous_key`: the Update to our section, under our previous key.
-/

namespace SafeNetwork

namespace MyNode

/-- `MyNode::send_ae_update_to_nodes`: an AE Update with the context's signed SAP, the proof
chain from `sectionPk` and the context's members, sent to `recipients`. -/
def sendAeUpdateToNodes (context : NodeContext) (recipients : Peers) (sectionPk : BlsPublicKey) :
    Cmd :=
  let members := context.networkKnowledge.members
  let aeMsg := NodeMsg.antiEntropy
    (generateAeSectionTreeUpdate context.networkKnowledge (some sectionPk)) (.update members)
  .sendMsg aeMsg recipients context

/-- `MyNode::send_updates_to_sibling_section` (it never fails): one Update, from
`prevContext` and under its section key, to the elders of the tree's SAP for the sibling
of its prefix that are not its elders; none when there are none or the tree has no such
SAP. -/
def sendUpdatesToSiblingSection (prevContext : NodeContext) : List Cmd :=
  let siblingPrefix := prevContext.networkKnowledge.sectionPrefix.sibling
  match prevContext.networkKnowledge.getSigned siblingPrefix with
  | some siblingSap =>
    let promotedSiblingElders := siblingSap.elders.filter fun peer =>
      !prevContext.networkKnowledge.elders.contains peer
    if promotedSiblingElders.isEmpty then []
    else
      let previousSectionKey := prevContext.networkKnowledge.sectionKey
      [sendAeUpdateToNodes prevContext (.multiple promotedSiblingElders) previousSectionKey]
  | none => []

/-- The Update a context sends under its own section key carries its signed SAP and a
proof chain that starts and ends at that key. -/
theorem generateAeSectionTreeUpdate_own_key (nk : NetworkKnowledge) :
    ∃ chain, generateAeSectionTreeUpdate nk (some nk.sectionKey) = ⟨nk.signedSap, chain⟩ ∧
      chain.head? = some nk.sectionKey ∧ chain.getLast? = some nk.sectionKey := by
  obtain ⟨hlast, hmem, -⟩ := @generateAeSectionTreeUpdate_spec nk nk.sectionKey
  exact ⟨_, rfl, (hmem (List.mem_of_getLast?_eq_some nk.chain_last)).1, hlast⟩

/-! ## A split of the root

Node `0` is the only elder of the whole network, at key `1`. The split gives it prefix `0`
at key `2`, and prefix `1` at key `3` to an elder that was not one before. -/

/-- The elder of prefix `1` after the split: a name whose first bit is set. -/
def promotedPeer : Peer := ⟨BitVec.ofNat 256 (Nat.pow 2 255), 1⟩

/-- The SAP of the whole network before the split, with node `0` its elder. -/
def preSplitSap : SectionAuthorityProvider := ⟨⟨[]⟩, 1, [⟨0, 0⟩], List.nodup_singleton _⟩

/-- Node `0`'s knowledge before the split. -/
def preSplitKnowledge : NetworkKnowledge :=
  ⟨preSplitSap, [0, 1], [⟨preSplitSap, [0, 1]⟩], [⟨0, .joined⟩], rfl⟩

/-- The SAP of prefix `1` after the split. -/
def siblingSap : SectionAuthorityProvider := ⟨⟨[true]⟩, 3, [promotedPeer], List.nodup_singleton _⟩

/-- Node `0`'s SAP after the split. -/
def postSplitSap : SectionAuthorityProvider := ⟨⟨[false]⟩, 2, [⟨0, 0⟩], List.nodup_singleton _⟩

/-- Node `0`'s knowledge after the split, with the sibling's SAP in its tree. -/
def postSplitKnowledge : NetworkKnowledge :=
  ⟨postSplitSap, [0, 1, 2], [⟨postSplitSap, [0, 1, 2]⟩, ⟨siblingSap, [0, 1, 3]⟩], [⟨0, .joined⟩],
    rfl⟩

/-- The code's sibling update, for every context it is given: a command is the Update of
that context's SAP, with a proof chain from its key, to the elders of its tree's entry for
the sibling of its prefix that are not its elders. After a split of the root, the root's
sibling is the root, whose entry is our own SAP, and nothing is sent. -/
theorem sibling_update_from_pre_split_context (prevContext : NodeContext) :
    let nk := prevContext.networkKnowledge
    (nk.sectionPrefix = ⟨[]⟩ → nk.getSigned ⟨[]⟩ = some nk.signedSap →
      sendUpdatesToSiblingSection prevContext = []) ∧
    ∀ c ∈ sendUpdatesToSiblingSection prevContext, ∃ sib chain,
      nk.getSigned nk.sectionPrefix.sibling = some sib ∧
      c = .sendMsg (.antiEntropy ⟨nk.signedSap, chain⟩ (.update nk.members))
        (.multiple (sib.elders.filter fun peer => !nk.elders.contains peer)) prevContext ∧
      chain.head? = some nk.sectionKey := by
  obtain ⟨chain, hu, hhead, -⟩ := generateAeSectionTreeUpdate_own_key prevContext.networkKnowledge
  refine ⟨fun hroot hown => ?_, fun c hc => ?_⟩
  · have hnone : (prevContext.networkKnowledge.signedSap.elders.filter fun peer =>
        !prevContext.networkKnowledge.elders.contains peer) = [] :=
      List.filter_eq_nil_iff.2 fun peer hp => by simp [NetworkKnowledge.elders, hp]
    simp only [sendUpdatesToSiblingSection, hroot, Prefix.sibling_root, hown, hnone,
      List.isEmpty_nil, if_true]
  · simp only [sendUpdatesToSiblingSection] at hc
    split at hc
    · next sib hsib =>
      split at hc
      · cases hc
      · obtain rfl := List.mem_singleton.1 hc
        exact ⟨sib, chain, hsib, by simp only [sendAeUpdateToNodes, hu], hhead⟩
    · cases hc

theorem root_split_skips_promoted_sibling :
    postSplitKnowledge.sectionPrefix = ⟨[false]⟩ ∧
      postSplitKnowledge.getSigned ⟨[true]⟩ = some siblingSap ∧
      (siblingSap.elders.filter fun peer => !preSplitKnowledge.elders.contains peer) =
        [promotedPeer] ∧
      preSplitKnowledge.sectionPrefix = ⟨[]⟩ ∧
      preSplitKnowledge.getSigned ⟨[]⟩ = some preSplitKnowledge.signedSap ∧
      sendUpdatesToSiblingSection ⟨0, preSplitKnowledge⟩ = [] :=
  ⟨rfl, rfl, by decide, rfl, rfl,
    (sibling_update_from_pre_split_context ⟨0, preSplitKnowledge⟩).1 rfl rfl⟩

/-! ## Updates that bring members up to date -/

/-- The `AntiEntropyProbe(section_key)` arm of `MyNode::handle_valid_node_msg`: an elder
(`context.is_elder`, here `isElder`) answers the prober with an AE Update from the key the probe
carries; an adult drops the probe. -/
def handleAntiEntropyProbe (context : NodeContext) (isElder : Bool) (sender : Peer)
    (sectionKey : BlsPublicKey) : List Cmd :=
  if !isElder then [] else [sendAeUpdateToNodes context (.single sender) sectionKey]

/-- `MyNode::send_ae_update_to_our_section`: an AE Update under the parent of our section key
(the genesis key when it has none) to the peers of our section's other members; none when we
are alone, or when the chain has no such key. The leaf that `last_key()` returns is our
section key, at which our chain ends (`chain_last`), so the `?` on it never fails. The model's
`NodeState` keeps a member's name only: `peerOf` gives its peer. -/
def sendAeUpdateToOurSection (context : NodeContext) (peerOf : NodeState → Peer) : Option Cmd :=
  let ourName := context.name
  let recipients := (context.networkKnowledge.members.filter (·.name != ourName)).map peerOf
  if recipients.isEmpty then none
  else
    let leaf := context.networkKnowledge.sectionKey
    match context.networkKnowledge.getParentKey leaf with
    | some prevPk =>
      some (sendAeUpdateToNodes context (.multiple recipients)
        (prevPk.getD context.networkKnowledge.genesisKey))
    | none => none

/-- What an AE Update `u` from `context`, carrying the context's members, does to a node that
handles it alone: a node of the context's section still at key `k` takes the context's SAP
and extends its chain with the rest of `u`'s; a node whose knowledge does not hold `k` is
left as it is. -/
structure BringsUpFrom (env : AeEnv) (context : NodeContext) (u : SectionTreeUpdate)
    (k : BlsPublicKey) : Prop where
  adopts : ∀ (node : SharedNode) (sender : Peer), node.context.networkKnowledge.sectionKey = k →
    k ≠ context.networkKnowledge.sectionKey →
    context.networkKnowledge.sectionPrefix.matches node.context.name →
    (handleAntiEntropyMsg env ⟨u, .update context.networkKnowledge.members, sender⟩
        node).1.context.networkKnowledge.signedSap = context.networkKnowledge.signedSap ∧
      (handleAntiEntropyMsg env ⟨u, .update context.networkKnowledge.members, sender⟩
        node).1.context.networkKnowledge.sectionChain =
        node.context.networkKnowledge.sectionChain ++ u.proofChain.tail
  rejects : ∀ (node : SharedNode) (sender : Peer), k ∉ node.context.networkKnowledge.knownKeys →
    (handleAntiEntropyMsg env ⟨u, .update context.networkKnowledge.members, sender⟩ node).1 = node

/-- The Update a context whose elders are among its members generates from a key of its
chain, whose keys are distinct, brings up to date the members still at that key. -/
theorem bringsUpFrom_generate (env : AeEnv) (context : NodeContext) {k : BlsPublicKey}
    (hel : context.networkKnowledge.EldersAreMembers)
    (hnodup : context.networkKnowledge.sectionChain.Nodup)
    (hk : k ∈ context.networkKnowledge.sectionChain) :
    BringsUpFrom env context (generateAeSectionTreeUpdate context.networkKnowledge (some k)) k := by
  obtain ⟨hlast, hmem, -⟩ := @generateAeSectionTreeUpdate_spec context.networkKnowledge k
  obtain ⟨hhead, hsuf⟩ := hmem hk
  refine ⟨fun node sender hkey hne hsec => ?_, fun node sender hunk => ?_⟩
  · obtain ⟨nk', hup, hsap, hchain⟩ := @NetworkKnowledge.updateKnowledgeIfValid_adopts _ _
      (some context.networkKnowledge.members) _ (hnodup.sublist hsuf.sublist)
      (hhead.trans (congrArg some hkey.symm)) hlast (by rw [hkey]; exact Ne.symm hne) hsec hel.cover
    rw [handleAntiEntropyMsg_knowledge env _ hup]
    exact ⟨hsap, hchain⟩
  · exact handleAntiEntropyMsg_of_error env _
      (NetworkKnowledge.updateKnowledgeIfValid_untrusted hhead hunk)

/-- An elder whose elders are among its members answers a probe carrying a key of its chain,
whose keys are distinct, with one Update to the prober that runs from that key to its own, and
brings up to date the members of its section still at that key, the prober among them. -/
theorem probe_answer_brings_prober_up_to_date (env : AeEnv) (context : NodeContext)
    (sender : Peer) (k : BlsPublicKey) (hel : context.networkKnowledge.EldersAreMembers)
    (hnodup : context.networkKnowledge.sectionChain.Nodup)
    (hk : k ∈ context.networkKnowledge.sectionChain) :
    ∃ u, handleAntiEntropyProbe context true sender k =
        [.sendMsg (.antiEntropy u (.update context.networkKnowledge.members)) (.single sender)
          context] ∧
      u.proofChain.head? = some k ∧ u.proofChain.getLast? = some context.networkKnowledge.sectionKey ∧
      BringsUpFrom env context u k := by
  obtain ⟨hlast, hmem, -⟩ := @generateAeSectionTreeUpdate_spec context.networkKnowledge k
  exact ⟨_, rfl, (hmem hk).1, hlast, bringsUpFrom_generate env context hel hnodup hk⟩

theorem probe_of_previous_key_answered :
    preSplitKnowledge.EldersAreMembers ∧ preSplitKnowledge.sectionChain.Nodup ∧
      0 ∈ preSplitKnowledge.sectionChain ∧
      ∃ u, handleAntiEntropyProbe ⟨0, preSplitKnowledge⟩ true promotedPeer 0 =
          [.sendMsg (.antiEntropy u (.update preSplitKnowledge.members)) (.single promotedPeer)
            ⟨0, preSplitKnowledge⟩] ∧
        u.proofChain.head? = some 0 ∧ u.proofChain.getLast? = some preSplitKnowledge.sectionKey ∧
        BringsUpFrom quietEnv ⟨0, preSplitKnowledge⟩ u 0 :=
  have hel : preSplitKnowledge.EldersAreMembers := by decide
  have hnodup : preSplitKnowledge.sectionChain.Nodup := by decide
  have hk : 0 ∈ preSplitKnowledge.sectionChain := by decide
  ⟨hel, hnodup, hk, probe_answer_brings_prober_up_to_date quietEnv _ promotedPeer 0 hel hnodup hk⟩

/-- After a key change of our section, whose chain ends with `prev` and then our key, each
key once, and whose elders are among its members: an Update to our section is sent exactly
when we have another member, to the peers of the other members, with the proof chain from
`prev` to our key; it brings up to date the members still at `prev`, and leaves as they are
those that do not know `prev`. -/
theorem our_section_update_from_previous_key (env : AeEnv) (context : NodeContext)
    (peerOf : NodeState → Peer) (older : List BlsPublicKey) (prev : BlsPublicKey)
    (hchain : context.networkKnowledge.sectionChain = older ++ [prev, context.networkKnowledge.sectionKey])
    (hnodup : context.networkKnowledge.sectionChain.Nodup)
    (hel : context.networkKnowledge.EldersAreMembers) :
    ((sendAeUpdateToOurSection context peerOf).isSome ↔
      ∃ m ∈ context.networkKnowledge.members, m.name ≠ context.name) ∧
    ∀ cmd, sendAeUpdateToOurSection context peerOf = some cmd → ∃ u,
      cmd = .sendMsg (.antiEntropy u (.update context.networkKnowledge.members))
        (.multiple ((context.networkKnowledge.members.filter (·.name != context.name)).map peerOf))
        context ∧
      u.proofChain = [prev, context.networkKnowledge.sectionKey] ∧ BringsUpFrom env context u prev := by
  have hparent := context.networkKnowledge.getParentKey_sectionKey hchain hnodup
  have hprev : prev ∈ context.networkKnowledge.sectionChain := by simp [hchain]
  have hu : (generateAeSectionTreeUpdate context.networkKnowledge (some prev)).proofChain =
      [prev, context.networkKnowledge.sectionKey] := by
    rw [hchain] at hnodup
    have hpos : ∀ a ∈ older, (a != prev) = true := fun a ha => by
      simpa using fun h : a = prev => (List.nodup_append.1 hnodup).2.2 ha (by simp [h])
    simp [generateAeSectionTreeUpdate, NetworkKnowledge.getProofChainToCurrentSection, hchain,
      List.dropWhile_append_of_pos hpos]
  have hsome : sendAeUpdateToOurSection context peerOf =
      if ((context.networkKnowledge.members.filter (·.name != context.name)).map peerOf).isEmpty
      then none
      else some (sendAeUpdateToNodes context
        (.multiple ((context.networkKnowledge.members.filter (·.name != context.name)).map peerOf))
        prev) := by
    simp only [sendAeUpdateToOurSection, hparent, Option.getD_some]
  refine ⟨?_, fun cmd hcmd => ⟨_, ?_, hu, bringsUpFrom_generate env context hel hnodup hprev⟩⟩
  · rw [hsome]
    split_ifs with h <;> simp_all [List.filter_eq_nil_iff]
  · rw [hsome] at hcmd
    split_ifs at hcmd
    exact (Option.some.inj hcmd).symm

/-- Node `0`'s knowledge before the split with a second member, node `5`. -/
def twoMemberKnowledge : NetworkKnowledge :=
  ⟨preSplitSap, [0, 1], [⟨preSplitSap, [0, 1]⟩], [⟨0, .joined⟩, ⟨5, .joined⟩], rfl⟩

/-- Node `0`, at its first key change, sends node `5` the Update from its previous key. -/
theorem our_section_update_after_first_key_change :
    twoMemberKnowledge.sectionChain = [] ++ [0, twoMemberKnowledge.sectionKey] ∧
      twoMemberKnowledge.sectionChain.Nodup ∧ twoMemberKnowledge.EldersAreMembers ∧
      (sendAeUpdateToOurSection ⟨0, twoMemberKnowledge⟩ (fun s => ⟨s.name, 0⟩)).isSome ∧
      ((sendAeUpdateToOurSection ⟨0, twoMemberKnowledge⟩ (fun s => ⟨s.name, 0⟩)).isSome ↔
        ∃ m ∈ twoMemberKnowledge.members, m.name ≠ 0) ∧
      ∀ cmd, sendAeUpdateToOurSection ⟨0, twoMemberKnowledge⟩ (fun s => ⟨s.name, 0⟩) = some cmd →
        ∃ u, cmd = .sendMsg (.antiEntropy u (.update twoMemberKnowledge.members))
            (.multiple ((twoMemberKnowledge.members.filter (·.name != 0)).map fun s => ⟨s.name, 0⟩))
            ⟨0, twoMemberKnowledge⟩ ∧
          u.proofChain = [0, twoMemberKnowledge.sectionKey] ∧
          BringsUpFrom quietEnv ⟨0, twoMemberKnowledge⟩ u 0 :=
  have hchain : twoMemberKnowledge.sectionChain = [] ++ [0, twoMemberKnowledge.sectionKey] := rfl
  have hnodup : twoMemberKnowledge.sectionChain.Nodup := by decide
  have hel : twoMemberKnowledge.EldersAreMembers := by decide
  ⟨hchain, hnodup, hel, rfl, our_section_update_from_previous_key quietEnv ⟨0, twoMemberKnowledge⟩ _ [] 0
    hchain hnodup hel⟩

end MyNode

end SafeNetwork
