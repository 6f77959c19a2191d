import SafeNetwork.Exchange
import SafeNetwork.History

/-!
# A sender behind its receiver catches up in one round

A sender sends a node message to an elder whose knowledge is ahead of its own. The key the
sender holds for the elder's section is on the elder's chain. The sender knows no section for
the elder's name deeper than the elder's own. The two agree on whether they share a section.
The copy passes the elder's check, or the elder answers with a Retry. The Retry carries the
elder's SAP and the proof chain from the sender's key (`checkForEntropy`). The sender trusts
the Retry and applies it: to its own section when the two share one, and to its section tree
otherwise (`updateKnowledgeIfValid_retry`). Its knowledge then gives the elder's key for the
elder's name. Its handler, run alone, re-sends the message under the context it read after the
update (`handleAntiEntropyMsg_retry`):

* `retry_round_delivers`: the re-sent copy passes the elder's check, whatever the message id
  and the random destination of the re-send. The handler fails only when
  `update_on_section_change` fails; otherwise its commands end with the re-send. One Retry is
  enough.

The elder being ahead matters: an elder behind the sender answers every copy with a Retry that
the sender does not take.
-/

namespace SafeNetwork

/-! ## Prefixes of one name -/

theorem Prefix.eq_of_bits {p q : Prefix} (h : p.bits = q.bits) : p = q := by
  cases p
  cases q
  cases h
  rfl

/-- Of two prefixes of one name, the shorter is a prefix of the longer. -/
theorem Prefix.bits_prefix_of_matches {p q : Prefix} {n : XorName} (hp : p.matches n)
    (hq : q.matches n) (hle : p.bits.length ≤ q.bits.length) : p.bits <+: q.bits :=
  List.prefix_of_prefix_length_le ((Prefix.matches_iff p n).1 hp) ((Prefix.matches_iff q n).1 hq) hle

namespace NetworkKnowledge

variable {nk nkR : NetworkKnowledge} {name ourName : XorName}

/-! ## The receiver's Retry -/

/-- The proof chain of a Retry, from a key of the receiver's chain whose keys are distinct,
has distinct keys and runs from that key to the receiver's section key. -/
theorem retryChain_spec (hnodup : nkR.sectionChain.Nodup) {k : BlsPublicKey}
    (hk : k ∈ nkR.sectionChain) :
    (generateAeSectionTreeUpdate nkR (some k)).proofChain.Nodup ∧
      (generateAeSectionTreeUpdate nkR (some k)).proofChain.head? = some k ∧
      (generateAeSectionTreeUpdate nkR (some k)).proofChain.getLast? = some nkR.sectionKey := by
  obtain ⟨hlast, hfrom, -⟩ := @MyNode.generateAeSectionTreeUpdate_spec nkR k
  obtain ⟨hhead, hsuf⟩ := hfrom hk
  exact ⟨hnodup.sublist hsuf.sublist, hhead, hlast⟩

/-- A knowledge that knows the key a Retry starts from trusts the Retry. -/
theorem verifies_retry (hnodup : nkR.sectionChain.Nodup) {k : BlsPublicKey}
    (hk : k ∈ nkR.sectionChain) (hknown : k ∈ nk.knownKeys) :
    nk.verifies (generateAeSectionTreeUpdate nkR (some k)) = true := by
  obtain ⟨hn, hh, hl⟩ := retryChain_spec hnodup hk
  have hlast : (generateAeSectionTreeUpdate nkR (some k)).proofChain.getLast? =
      some (generateAeSectionTreeUpdate nkR (some k)).signedSap.sectionKey := hl
  simp [verifies, hn, hh, hlast, hknown]

/-- The chain of a Retry from a key other than the receiver's proves a key newer than it. -/
theorem provesNewer_retry (hnodup : nkR.sectionChain.Nodup) {k : BlsPublicKey}
    (hk : k ∈ nkR.sectionChain) (hne : k ≠ nkR.sectionKey) :
    provesNewer k (generateAeSectionTreeUpdate nkR (some k)).proofChain = true := by
  obtain ⟨-, hh, hl⟩ := retryChain_spec hnodup hk
  simp [provesNewer, hl, List.mem_of_mem_head? hh, Ne.symm hne]

/-! ## A Retry of our section -/

/-- A Retry from a receiver of our section, ahead of us, makes its SAP ours, and keeps the
peers its prefix matches. -/
theorem applyUpdate_retry_ours (hnodup : nkR.sectionChain.Nodup)
    (hk : nk.sectionKey ∈ nkR.sectionChain) (hne : nk.sectionKey ≠ nkR.sectionKey)
    (hours : nkR.sectionPrefix.matches ourName) :
    ∃ nk', nk.applyUpdate (generateAeSectionTreeUpdate nkR (some nk.sectionKey)) ourName = (true, nk') ∧
      nk'.signedSap = nkR.signedSap ∧
      nk'.sectionPeers = nk.sectionPeers.filter (nkR.sectionPrefix.matches ·.name) := by
  have hnew : provesNewer nk.sectionKey (generateAeSectionTreeUpdate nkR (some nk.sectionKey)).proofChain ∧
      (generateAeSectionTreeUpdate nkR (some nk.sectionKey)).proofChain.getLast? =
        some (generateAeSectionTreeUpdate nkR (some nk.sectionKey)).signedSap.sectionKey :=
    ⟨provesNewer_retry hnodup hk hne, (retryChain_spec hnodup hk).2.2⟩
  have hmatch : (generateAeSectionTreeUpdate nkR (some nk.sectionKey)).signedSap.sectionPrefix.matches
      ourName := hours
  unfold applyUpdate updateOurSection
  rw [if_pos hmatch, dif_pos hnew]
  exact ⟨_, rfl, rfl, rfl⟩

/-- A member stays a member when the peers are filtered by a prefix that matches its name. -/
theorem isMember_of_filter {nk' : NetworkKnowledge} {P : Prefix} (h : P.matches ourName)
    (hm : nk.isMember ourName) (hpeers : nk'.sectionPeers = nk.sectionPeers.filter (P.matches ·.name)) :
    nk'.isMember ourName := by
  simp only [isMember, members, List.any_eq_true, List.mem_filter, beq_iff_eq, hpeers] at hm ⊢
  obtain ⟨s, ⟨hs, hj⟩, rfl⟩ := hm
  exact ⟨s, ⟨⟨hs, h⟩, hj⟩, rfl⟩

/-! ## A Retry of another section -/

/-- The tree's entry for the prefix of a receiver of the name `name`, if it has one, is the
closest entry for `name`, when that entry is no deeper than the receiver's prefix. -/
theorem find?_prefix_eq_closest (hwf : TreeWellFormed nk.sectionTree) {e : SectionTreeUpdate}
    (he : nk.closestEntry name = some e) {P : Prefix} (hR : P.matches name)
    (hdeep : e.signedSap.sectionPrefix.bits.length ≤ P.bits.length) {f : SectionTreeUpdate}
    (hf : nk.sectionTree.find? (·.signedSap.sectionPrefix = P) = some f) : f = e := by
  obtain ⟨hemem, hem, hlongest⟩ := closestEntry_spec he
  have hfmem := List.mem_of_find?_eq_some hf
  have hfP : f.signedSap.sectionPrefix = P := by simpa using List.find?_some hf
  have hle : P.bits.length ≤ e.signedSap.sectionPrefix.bits.length := by
    have := hlongest f hfmem (by rw [hfP]; exact hR)
    rwa [hfP] at this
  have hbits : e.signedSap.sectionPrefix.bits = P.bits :=
    (Prefix.bits_prefix_of_matches hem hR hdeep).eq_of_length (Nat.le_antisymm hdeep hle)
  exact List.inj_on_of_nodup_map hwf.prefixes_nodup hfmem hemem (hfP.trans (Prefix.eq_of_bits hbits).symm)

/-- With `u` put in the tree, and no entry matching `name` deeper than `u`'s prefix, `u` is the
closest entry for `name`. -/
theorem closestEntry_insertEntry {u : SectionTreeUpdate} (hu : u.signedSap.sectionPrefix.matches name)
    (hle : ∀ f ∈ nk.sectionTree, f.signedSap.sectionPrefix.matches name →
      f.signedSap.sectionPrefix.bits.length ≤ u.signedSap.sectionPrefix.bits.length) :
    { nk with sectionTree := insertEntry nk.sectionTree u }.closestEntry name = some u := by
  have hnone : (nk.sectionTree.filter fun f =>
      !f.signedSap.sectionPrefix.bits.isPrefixOf u.signedSap.sectionPrefix.bits).filter
        (·.signedSap.sectionPrefix.matches name) = [] := by
    refine List.filter_eq_nil_iff.2 fun f hf hm => ?_
    obtain ⟨hf, hnp⟩ := List.mem_filter.1 hf
    have hpre := Prefix.bits_prefix_of_matches hm hu (hle f hf hm)
    simp [List.isPrefixOf_iff_prefix.2 hpre] at hnp
  simp only [closestEntry, insertEntry, List.filter_cons, hu, if_true, hnone, List.argmax_singleton]

/-- A Retry from a receiver of another section, ahead of the entry closest to its name and no
shallower, takes the place of that entry; our SAP and peers stay. -/
theorem applyUpdate_retry_remote (hwf : TreeWellFormed nk.sectionTree)
    (hnodup : nkR.sectionChain.Nodup) {e : SectionTreeUpdate} (he : nk.closestEntry name = some e)
    (hk : e.signedSap.sectionKey ∈ nkR.sectionChain) (hne : e.signedSap.sectionKey ≠ nkR.sectionKey)
    (hR : nkR.sectionPrefix.matches name) (hout : nkR.sectionPrefix.matches ourName = false)
    (hdeep : e.signedSap.sectionPrefix.bits.length ≤ nkR.sectionPrefix.bits.length) :
    nk.applyUpdate (generateAeSectionTreeUpdate nkR (some e.signedSap.sectionKey)) ourName =
      (true, { nk with
        sectionTree := insertEntry nk.sectionTree (generateAeSectionTreeUpdate nkR (some e.signedSap.sectionKey)) }) := by
  have hmatch : (generateAeSectionTreeUpdate nkR (some e.signedSap.sectionKey)).signedSap.sectionPrefix.matches
      ourName = false := hout
  have hadv : nk.treeAdvances (generateAeSectionTreeUpdate nkR (some e.signedSap.sectionKey)) = true := by
    unfold treeAdvances
    split
    · next f hf =>
      rw [find?_prefix_eq_closest hwf he hR hdeep hf]
      exact provesNewer_retry hnodup hk hne
    · rfl
  unfold applyUpdate updateSectionTree
  rw [if_neg (by rw [hmatch]; exact Bool.false_ne_true), if_pos hadv]

/-! ## The sender's update -/

/-- A sender whose destination for `name` carries a key on the chain of a receiver of `name`,
other than the receiver's key, trusts the receiver's Retry and advances. Its knowledge then
gives the receiver's key for `name`, and a member stays a member. -/
theorem updateKnowledgeIfValid_retry (hwf : nk.WellFormed) (hnodup : nkR.sectionChain.Nodup)
    (hR : nkR.sectionPrefix.matches name) {d : Dst} (hd : nk.generateDst name = .ok d)
    (hahead : d.sectionKey ∈ nkR.sectionChain) (hne : d.sectionKey ≠ nkR.sectionKey)
    (hagree : nkR.sectionPrefix.matches ourName = nk.sectionPrefix.matches name)
    (hdeep : ∀ e ∈ nk.sectionTree, e.signedSap.sectionPrefix.matches name →
      e.signedSap.sectionPrefix.bits.length ≤ nkR.sectionPrefix.bits.length) :
    ∃ nk', nk.updateKnowledgeIfValid (generateAeSectionTreeUpdate nkR (some d.sectionKey)) none
        ourName = .ok (true, nk') ∧
      nk'.generateDst name = .ok ⟨name, nkR.sectionKey⟩ ∧ (nk.isMember ourName → nk'.isMember ourName) := by
  unfold generateDst at hd
  split at hd
  · -- our section: the destination carries our key
    next hours =>
    cases hd
    have hknown : nk.sectionKey ∈ nk.knownKeys :=
      List.mem_append_left _ (List.mem_of_getLast?_eq_some nk.chain_last)
    have hours' : nkR.sectionPrefix.matches ourName := hagree.trans hours
    obtain ⟨nk', happ, hsap, hpeers⟩ := applyUpdate_retry_ours hnodup hahead hne hours'
    refine ⟨nk', by rw [updateKnowledgeIfValid_none (verifies_retry hnodup hahead hknown), happ],
      ?_, fun hm => isMember_of_filter hours' hm hpeers⟩
    have hm' : nk'.sectionPrefix.matches name := by rw [sectionPrefix, hsap]; exact hR
    simp only [generateDst, hm', if_true, sectionKey, hsap]
  · -- another section: the destination carries the key of the closest entry
    next hnot =>
    split at hd
    · next e he =>
      cases hd
      obtain ⟨hemem, hem, -⟩ := closestEntry_spec he
      have hknown : e.signedSap.sectionKey ∈ nk.knownKeys :=
        List.mem_append_right _ (List.mem_flatMap.2
          ⟨e, hemem, List.mem_of_getLast?_eq_some (hwf.tree.chains_end e hemem)⟩)
      have hout : nkR.sectionPrefix.matches ourName = false := hagree.trans (Bool.eq_false_iff.2 hnot)
      refine ⟨{ nk with
        sectionTree := insertEntry nk.sectionTree (generateAeSectionTreeUpdate nkR (some e.signedSap.sectionKey)) },
        by rw [updateKnowledgeIfValid_none (verifies_retry hnodup hahead hknown),
          applyUpdate_retry_remote hwf.tree hnodup he hahead hne hR hout (hdeep e hemem hem)], ?_, id⟩
      have hclose := @closestEntry_insertEntry nk name
        (generateAeSectionTreeUpdate nkR (some e.signedSap.sectionKey)) hR hdeep
      simp only [sectionPrefix] at hnot
      simp only [generateDst, sectionPrefix, hnot, hclose, if_false]
      rfl
    · cases hd

end NetworkKnowledge

/-! ## The sender's handler -/

namespace MyNode

/-- Run alone on a node whose knowledge a Retry advances to `nk`, keeping it a member if it
was one, the handler re-sends the bounced message under the context it read after the
update, unless `update_on_section_change` fails. -/
theorem handleAntiEntropyMsg_retry (env : AeEnv) {node : SharedNode} {u : SectionTreeUpdate}
    {bounced : UsrMsgBytes} {receiver : Peer} {nk : NetworkKnowledge}
    (hupd : node.context.networkKnowledge.updateKnowledgeIfValid u none node.context.name = .ok (true, nk))
    (hmem : node.context.networkKnowledge.isMember node.context.name → nk.isMember node.context.name)
    {id : MsgId} {d : Dst} {m : NodeMsg} (hd : env.codec.deserialize bounced = .ok (.node id d m))
    (hk : d.sectionKey ≠ u.signedSap.sectionKey) :
    let r := handleAntiEntropyMsg env ⟨u, .retry bounced, receiver⟩ node
    r.1.context = ⟨node.context.name, nk⟩ ∧
      ((∃ cmds, r.2 = .finished (.ok (cmds ++ [.sendMsg m (.single receiver) r.1.context]))) ∨
        ∃ e, env.updateOnSectionChange r.1.context node.context = .error e ∧ r.2 = .finished (.error e)) := by
  rw [handleAntiEntropyMsg_eq]
  cases hch : env.updateOnSectionChange ⟨node.context.name, nk⟩ node.context with
  | error e =>
    have hs : handleAntiEntropyStep env ⟨u, .retry bounced, receiver⟩ node (.started node.context) =
        ({ node with context := ⟨node.context.name, nk⟩ }, .finished (.error e)) := by
      simp only [handleAntiEntropyStep, AntiEntropyKind.members?, hupd, hch]
    simp only [handleAntiEntropyStep_dispatched, hs, handleAntiEntropyStep_finished, true_and]
    exact .inr ⟨e, hch, rfl⟩
  | ok cmds =>
    have hstay : ¬ (node.context.networkKnowledge.isMember node.context.name = true ∧
        ¬ nk.isMember node.context.name = true) := fun ⟨h, hn⟩ => hn (hmem h)
    simp only [handleAntiEntropyStep_dispatched,
      handleAntiEntropyStep_locked env ⟨u, .retry bounced, receiver⟩ hupd hupd hch,
      handleAntiEntropyStep_updated, handleAntiEntropyStep_read_true,
      handleAntiEntropyStep_targetsSet, handleAntiEntropyStep_finished, if_neg hstay,
      resendBouncedMsg_retry env hd hk, true_and]
    exact .inl ⟨_, rfl⟩

/-! ## One round -/

/-- A sender sends a node message to an elder of a section whose knowledge is ahead of its
own: the key the sender holds for the elder's name is on the elder's chain, the two agree on
whether they share a section, and the sender knows no section for the elder's name deeper than
the elder's. The copy passes the elder's check, or the elder answers with a Retry. Then the
sender's handler, run alone, fails only when `update_on_section_change` fails, and otherwise
ends its commands with the re-send. Every re-send of the message to the elder, under the
context the handler leaves, is one copy, and it passes the elder's check. -/
theorem retry_round_delivers (env : AeEnv) (hlaw : env.codec.Lawful) (node : SharedNode)
    (nkR : NetworkKnowledge) (receiver : Peer) (m : NodeMsg)
    (hser : env.codec.Serializes node.context.name m) (msgId : MsgId) (randomDst : Dst)
    (hwf : node.context.networkKnowledge.WellFormed) (hnodup : nkR.sectionChain.Nodup)
    (hR : nkR.sectionPrefix.matches receiver.name)
    (hagree : nkR.sectionPrefix.matches node.context.name =
      node.context.networkKnowledge.sectionPrefix.matches receiver.name)
    (hdeep : ∀ e ∈ node.context.networkKnowledge.sectionTree,
      e.signedSap.sectionPrefix.matches receiver.name →
        e.signedSap.sectionPrefix.bits.length ≤ nkR.sectionPrefix.bits.length)
    (d : Dst) (hd : node.context.networkKnowledge.generateDst receiver.name = .ok d)
    (hahead : d.sectionKey ∈ nkR.sectionChain) :
    ∃ b, intoMsgBytes env.codec node.context.networkKnowledge node.context.name m msgId
        (.single receiver) randomDst = .ok [(receiver, b)] ∧
      (receiverAnswer env.codec nkR b = .ok none ∨
        ∃ bounced, receiverAnswer env.codec nkR b =
            .ok (some (generateAeSectionTreeUpdate nkR (some d.sectionKey), .retry bounced)) ∧
          let r := handleAntiEntropyMsg env
            ⟨generateAeSectionTreeUpdate nkR (some d.sectionKey), .retry bounced, receiver⟩ node
          ((∃ cmds, r.2 = .finished (.ok (cmds ++ [.sendMsg m (.single receiver) r.1.context]))) ∨
            ∃ e, env.updateOnSectionChange r.1.context node.context = .error e ∧
              r.2 = .finished (.error e)) ∧
          ∀ msgId' randomDst', ∃ b', intoMsgBytes env.codec r.1.context.networkKnowledge
              r.1.context.name m msgId' (.single receiver) randomDst' = .ok [(receiver, b')] ∧
            receiverAnswer env.codec nkR b' = .ok none) := by
  obtain ⟨kind, payload, hs, hcopy⟩ := hser
  -- every copy of the message serialises, under any destination
  have hsend : ∀ (nk : NetworkKnowledge) (id : MsgId) (rd d' : Dst),
      nk.generateDst receiver.name = .ok d' →
      ∃ b', intoMsgBytes env.codec nk node.context.name m id (.single receiver) rd = .ok [(receiver, b')] ∧
        receiverAnswer env.codec nkR b' = checkForEntropy env.codec ⟨id, kind, d', payload⟩ nkR := by
    intro nk id rd d' hd'
    obtain ⟨⟨_, hinit⟩, hnew⟩ := hcopy ⟨id, kind, rd, payload⟩ rfl rfl
    obtain ⟨b', hb'⟩ := hnew d'
    exact ⟨b', by simp only [intoMsgBytes, hs, hinit, bytesPerRecipient, hd', hb', Except.map],
      receiverAnswer_of_serializeWithNewDst hlaw hb'⟩
  obtain ⟨b, hc, ha⟩ := hsend _ msgId randomDst d hd
  refine ⟨b, hc, ?_⟩
  have hm : nkR.sectionPrefix.matches d.name := by
    rw [NetworkKnowledge.generateDst_name hd]
    exact hR
  by_cases hk : d.sectionKey = nkR.sectionKey
  · -- the keys agree: the copy passes
    left
    rw [ha]
    simp [checkForEntropy, hm, hk]
  · -- a Retry, which the sender takes
    right
    obtain ⟨bounced, hw⟩ := (hcopy ⟨msgId, kind, d, payload⟩ rfl rfl).1
    refine ⟨bounced, by rw [ha, @checkForEntropy_of_key_ne env.codec ⟨msgId, kind, d, payload⟩ nkR hm hk, hw]; rfl, ?_⟩
    have hdes := hlaw.deserialize_serialize _ m kind payload ⟨msgId, kind, d, payload⟩ bounced hs rfl rfl hw
    obtain ⟨nk', hupd, hdst, hmem⟩ :=
      NetworkKnowledge.updateKnowledgeIfValid_retry hwf hnodup hR hd hahead hk hagree hdeep
    obtain ⟨hctx, hres⟩ := handleAntiEntropyMsg_retry env hupd hmem hdes hk
    refine ⟨hres, fun msgId' randomDst' => ?_⟩
    rw [hctx]
    obtain ⟨b', hc', ha'⟩ := hsend nk' msgId' randomDst' _ hdst
    refine ⟨b', hc', ?_⟩
    rw [ha']
    simp [checkForEntropy, hR]

/-- Node `0` at its first key `0`. -/
def laggingSender : SharedNode :=
  ⟨⟨0, memberKnowledge⟩, memberKnowledge.sectionTree, memberKnowledge.members⟩

/-- Node `0`, at key `0`, sends a node message to the elder `1`, at key `2` of the whole
network: the copy carries key `0`, and one Retry round brings node `0` up to the elder's key. -/
theorem lagging_sender_catches_up :
    unaryEnv.codec.Lawful ∧ unaryEnv.codec.Serializes laggingSender.context.name (.other 0) ∧
      laggingSender.context.networkKnowledge.WellFormed ∧ newerKnowledge.sectionChain.Nodup ∧
      newerKnowledge.sectionPrefix.matches elderPeer.name ∧
      newerKnowledge.sectionPrefix.matches laggingSender.context.name =
        laggingSender.context.networkKnowledge.sectionPrefix.matches elderPeer.name ∧
      (∀ e ∈ laggingSender.context.networkKnowledge.sectionTree,
        e.signedSap.sectionPrefix.matches elderPeer.name →
          e.signedSap.sectionPrefix.bits.length ≤ newerKnowledge.sectionPrefix.bits.length) ∧
      laggingSender.context.networkKnowledge.generateDst elderPeer.name = .ok ⟨1, 0⟩ ∧
      (⟨1, 0⟩ : Dst).sectionKey ∈ newerKnowledge.sectionChain ∧
      ∃ b, intoMsgBytes unaryEnv.codec laggingSender.context.networkKnowledge
          laggingSender.context.name (.other 0) 0 (.single elderPeer) ⟨0, 0⟩ = .ok [(elderPeer, b)] ∧
        (receiverAnswer unaryEnv.codec newerKnowledge b = .ok none ∨
          ∃ bounced, receiverAnswer unaryEnv.codec newerKnowledge b =
              .ok (some (generateAeSectionTreeUpdate newerKnowledge (some (⟨1, 0⟩ : Dst).sectionKey),
                .retry bounced)) ∧
            let r := handleAntiEntropyMsg unaryEnv
              ⟨generateAeSectionTreeUpdate newerKnowledge (some (⟨1, 0⟩ : Dst).sectionKey),
                .retry bounced, elderPeer⟩ laggingSender
            ((∃ cmds, r.2 = .finished (.ok (cmds ++ [.sendMsg (.other 0) (.single elderPeer) r.1.context]))) ∨
              ∃ e, unaryEnv.updateOnSectionChange r.1.context laggingSender.context = .error e ∧
                r.2 = .finished (.error e)) ∧
            ∀ msgId' randomDst', ∃ b', intoMsgBytes unaryEnv.codec r.1.context.networkKnowledge
                r.1.context.name (.other 0) msgId' (.single elderPeer) randomDst' = .ok [(elderPeer, b')] ∧
              receiverAnswer unaryEnv.codec newerKnowledge b' = .ok none) :=
  have hser : unaryEnv.codec.Serializes laggingSender.context.name (.other 0) := unaryCodec_serializes 0 0
  have hwf : laggingSender.context.networkKnowledge.WellFormed := System.memberKnowledge_wellFormed
  have hnodup : newerKnowledge.sectionChain.Nodup := by decide
  have hdeep : ∀ e ∈ laggingSender.context.networkKnowledge.sectionTree,
      e.signedSap.sectionPrefix.matches elderPeer.name →
        e.signedSap.sectionPrefix.bits.length ≤ newerKnowledge.sectionPrefix.bits.length := by
    simp [laggingSender, memberKnowledge, rootSap, newerKnowledge, NetworkKnowledge.sectionPrefix]
  have hahead : (⟨1, 0⟩ : Dst).sectionKey ∈ newerKnowledge.sectionChain := by decide
  have hR : newerKnowledge.sectionPrefix.matches elderPeer.name := rfl
  have hagree : newerKnowledge.sectionPrefix.matches laggingSender.context.name =
      laggingSender.context.networkKnowledge.sectionPrefix.matches elderPeer.name :=
    (rfl : _ = true).trans rfl
  ⟨unaryCodec_lawful, hser, hwf, hnodup, hR, hagree, hdeep, rfl, hahead,
    retry_round_delivers unaryEnv unaryCodec_lawful laggingSender newerKnowledge elderPeer (.other 0)
      hser 0 ⟨0, 0⟩ hwf hnodup hR hagree hdeep ⟨1, 0⟩ rfl hahead⟩

end MyNode

end SafeNetwork
