import SafeNetwork.Messages

/-!
# The entropy check

`MyNode.checkForEntropy`, run by an elder on an inbound message: no response when the
message is for our section under our current key; a Retry with our signed SAP and a proof
chain to our key when only the key differs; a Redirect when the name is not ours.

* `checkForEntropy_spec`: no response exactly for our prefix and key; a Retry carries our
  SAP, a chain that ends at our key and starts at the message's key when we know it, and
  the serialised message; outside our prefix only Redirects;
* `checkForEntropy_redirect`: outside our prefix, a Redirect carries the entry of our tree
  whose prefix is the longest one that matches the name, never our own SAP, and
  `NoMatchingSection` comes exactly when no prefix of the tree matches.
-/

namespace SafeNetwork

/-- `generate_ae_section_tree_update`: our signed SAP, with the proof chain from the given
key to our section key when we have one, and our whole section chain otherwise. -/
def generateAeSectionTreeUpdate (nk : NetworkKnowledge) (dstSectionKey : Option BlsPublicKey) :
    SectionTreeUpdate :=
  ⟨nk.signedSap, (dstSectionKey.bind nk.getProofChainToCurrentSection).getD nk.sectionChain⟩

namespace MyNode

/-- `MyNode::check_for_entropy` (the sender is only logged, and left out). -/
def checkForEntropy (codec : WireCodec) (wireMsg : WireMsg) (nk : NetworkKnowledge) :
    Except Error (Option (SectionTreeUpdate × AntiEntropyKind)) :=
  let dst := wireMsg.dst
  if !nk.sectionPrefix.matches dst.name then
    match nk.closestSignedSapWithChain dst.name with
    | some (signedSap, proofChain) => do
      let bouncedMsg ← (codec.serialize wireMsg).mapError .messaging
      pure (some (⟨signedSap, proofChain⟩, .redirect bouncedMsg))
    | none => .error .noMatchingSection
  else if dst.sectionKey = nk.sectionKey then .ok none
  else do
    let sectionTreeUpdate := generateAeSectionTreeUpdate nk (some dst.sectionKey)
    let bouncedMsg ← (codec.serialize wireMsg).mapError .messaging
    pure (some (sectionTreeUpdate, .retry bouncedMsg))

variable {codec : WireCodec} {wireMsg : WireMsg} {nk : NetworkKnowledge}

/-- Outside our prefix: a Redirect with the entry of the longest matching prefix of our tree
and the serialised message, or `NoMatchingSection` when no prefix of the tree matches. -/
theorem checkForEntropy_of_not_matches (h : nk.sectionPrefix.matches wireMsg.dst.name = false) :
    (∃ e, nk.closestEntry wireMsg.dst.name = some e ∧ checkForEntropy codec wireMsg nk =
      (fun b => some (e, .redirect b)) <$> (codec.serialize wireMsg).mapError .messaging) ∨
    ((∀ e ∈ nk.sectionTree, e.signedSap.sectionPrefix.matches wireMsg.dst.name = false) ∧
      checkForEntropy codec wireMsg nk = .error .noMatchingSection) := by
  rcases NetworkKnowledge.closestSignedSapWithChain_spec nk wireMsg.dst.name
    with ⟨e, he, hc⟩ | ⟨hn, hc⟩
  · refine .inl ⟨e, he, ?_⟩
    simp only [checkForEntropy, h, Bool.not_false, if_true, hc]
    rfl
  · exact .inr ⟨hn, by simp only [checkForEntropy, h, Bool.not_false, if_true, hc]⟩

/-- In our prefix under another key: a Retry with our SAP, the proof chain from the
message's key, and the serialised message. -/
theorem checkForEntropy_of_key_ne (h : nk.sectionPrefix.matches wireMsg.dst.name = true)
    (hk : wireMsg.dst.sectionKey ≠ nk.sectionKey) :
    checkForEntropy codec wireMsg nk =
      (fun b => some (generateAeSectionTreeUpdate nk (some wireMsg.dst.sectionKey), .retry b)) <$>
        (codec.serialize wireMsg).mapError .messaging := by
  simp only [checkForEntropy, h, Bool.not_true, if_false, if_neg hk]
  rfl

/-- A response made from the serialised message: `Ok` only when serialisation succeeds, with
what it makes of the bytes, and never `NoMatchingSection`. -/
theorem map_mapError_messaging {α : Type} (f : UsrMsgBytes → α) (x : Except Nat UsrMsgBytes) :
    (∀ a, f <$> x.mapError Error.messaging = .ok a → ∃ b, x = .ok b ∧ a = f b) ∧
      f <$> x.mapError Error.messaging ≠ .error .noMatchingSection := by
  cases x with
  | error c => exact ⟨fun a h => (nomatch h), fun h => (nomatch h)⟩
  | ok b => exact ⟨fun a h => ⟨b, rfl, (Except.ok.inj h).symm⟩, fun h => (nomatch h)⟩

theorem map_ne_ok_none {α : Type} {f : UsrMsgBytes → Option α} (hf : ∀ b, f b ≠ none)
    (x : Except Nat UsrMsgBytes) : f <$> x.mapError Error.messaging ≠ .ok none := fun h =>
  let ⟨b, _, hb⟩ := (map_mapError_messaging f x).1 none h
  hf b hb.symm

theorem generateAeSectionTreeUpdate_spec (key : BlsPublicKey) :
    (generateAeSectionTreeUpdate nk (some key)).proofChain.getLast? = some nk.sectionKey ∧
    (key ∈ nk.sectionChain → (generateAeSectionTreeUpdate nk (some key)).proofChain.head? = some key ∧
      (generateAeSectionTreeUpdate nk (some key)).proofChain <:+ nk.sectionChain) ∧
    (key ∉ nk.sectionChain → (generateAeSectionTreeUpdate nk (some key)).proofChain = nk.sectionChain) := by
  by_cases hk : key ∈ nk.sectionChain
  · obtain ⟨c, hc, hh, hs, hl⟩ := NetworkKnowledge.getProofChainToCurrentSection_spec hk
    simp only [generateAeSectionTreeUpdate, Option.some_bind, hc, Option.getD_some]
    exact ⟨hl, fun _ => ⟨hh, hs⟩, fun h => absurd hk h⟩
  · simp only [generateAeSectionTreeUpdate, Option.some_bind,
      NetworkKnowledge.getProofChainToCurrentSection_eq_none hk, Option.getD_none]
    exact ⟨nk.chain_last, fun h => absurd h hk, fun _ => trivial⟩

/-- The entropy check on a message: no response exactly for our prefix and our current key.
Under any other key of our prefix, a Retry with our signed SAP, a proof chain that ends at
our key (the rest of our chain from the message's key when that key is on it, our whole
chain otherwise) and the serialised message. Outside our prefix, neither `none` nor a
Retry, whatever the key. -/
theorem checkForEntropy_spec (codec : WireCodec) (wireMsg : WireMsg) (nk : NetworkKnowledge) :
    (checkForEntropy codec wireMsg nk = .ok none ↔
      nk.sectionPrefix.matches wireMsg.dst.name ∧ wireMsg.dst.sectionKey = nk.sectionKey) ∧
    (nk.sectionPrefix.matches wireMsg.dst.name → wireMsg.dst.sectionKey ≠ nk.sectionKey →
      ∃ chain, checkForEntropy codec wireMsg nk =
          (fun b => some (⟨nk.signedSap, chain⟩, .retry b)) <$> (codec.serialize wireMsg).mapError .messaging ∧
        chain.getLast? = some nk.sectionKey ∧
        (wireMsg.dst.sectionKey ∈ nk.sectionChain →
          chain.head? = some wireMsg.dst.sectionKey ∧ chain <:+ nk.sectionChain) ∧
        (wireMsg.dst.sectionKey ∉ nk.sectionChain → chain = nk.sectionChain)) ∧
    (nk.sectionPrefix.matches wireMsg.dst.name = false →
      ∀ r, checkForEntropy codec wireMsg nk = .ok r → ∃ u b, r = some (u, .redirect b)) := by
  refine ⟨⟨fun h => ?_, fun ⟨hm, hk⟩ => ?_⟩, fun hm hk => ?_, fun hm r hr => ?_⟩
  · cases hm : nk.sectionPrefix.matches wireMsg.dst.name
    · rcases @checkForEntropy_of_not_matches codec _ _ hm with ⟨e, -, he⟩ | ⟨-, he⟩
      · exact absurd (he ▸ h) (map_ne_ok_none (by simp) _)
      · exact nomatch he.symm.trans h
    · refine ⟨rfl, Classical.not_not.1 fun hk => ?_⟩
      exact map_ne_ok_none (by simp) _ (checkForEntropy_of_key_ne hm hk ▸ h)
  · simp [checkForEntropy, hm, hk]
  · exact ⟨_, checkForEntropy_of_key_ne hm hk, generateAeSectionTreeUpdate_spec _⟩
  · rcases @checkForEntropy_of_not_matches codec _ _ hm with ⟨e, -, he⟩ | ⟨-, he⟩
    · obtain ⟨b, -, rfl⟩ := (map_mapError_messaging _ _).1 r (he ▸ hr)
      exact ⟨_, _, rfl⟩
    · exact nomatch he.symm.trans hr

/-! ## Redirects -/

/-- Outside our prefix the check redirects only to a SAP of our tree whose prefix matches the
name, the longest such prefix of the tree, and never to our own SAP, whose prefix does not
match; it signals `NoMatchingSection` exactly when no prefix of the tree matches the name. -/
theorem checkForEntropy_redirect (codec : WireCodec) (wireMsg : WireMsg) (nk : NetworkKnowledge)
    (h : nk.sectionPrefix.matches wireMsg.dst.name = false) :
    (∀ u b, checkForEntropy codec wireMsg nk = .ok (some (u, .redirect b)) →
      u ∈ nk.sectionTree ∧ u.signedSap.sectionPrefix.matches wireMsg.dst.name ∧
      u.signedSap ≠ nk.signedSap ∧
      ∀ e ∈ nk.sectionTree, e.signedSap.sectionPrefix.matches wireMsg.dst.name →
        e.signedSap.sectionPrefix.bits.length ≤ u.signedSap.sectionPrefix.bits.length) ∧
    (checkForEntropy codec wireMsg nk = .error .noMatchingSection ↔
      ∀ e ∈ nk.sectionTree, e.signedSap.sectionPrefix.matches wireMsg.dst.name = false) := by
  rcases @checkForEntropy_of_not_matches codec _ _ h with ⟨e, he, hc⟩ | ⟨hn, hc⟩
  · -- a prefix of the tree matches: the Redirect carries its entry
    obtain ⟨hmem, hm, hl⟩ := NetworkKnowledge.closestEntry_spec he
    refine ⟨fun u b hr => ?_, iff_of_false (fun hr => ?_) fun hn => ?_⟩
    · obtain ⟨_, -, hu⟩ := (map_mapError_messaging _ _).1 _ (hc ▸ hr)
      cases hu
      refine ⟨hmem, hm, fun hsap => ?_, hl⟩
      rw [hsap] at hm
      exact Bool.false_ne_true (h.symm.trans hm)
    · exact (map_mapError_messaging _ _).2 (hc ▸ hr)
    · exact Bool.false_ne_true ((hn e hmem).symm.trans hm)
  · -- no prefix of the tree matches
    exact ⟨fun u b hr => (nomatch hc.symm.trans hr), iff_of_true hc hn⟩

/-- Our section, of prefix `0` and key `1`, knowing no other section. -/
def lonelySap : SectionAuthorityProvider := ⟨⟨[false]⟩, 1, [], by decide⟩

/-- A message for a name of prefix `1`. -/
def siblingMsg : WireMsg := ⟨0, .client, ⟨BitVec.ofNat 256 (Nat.pow 2 255), 2⟩, []⟩

theorem lonelySap_not_matches : lonelySap.sectionPrefix.matches siblingMsg.dst.name = false := by
  rw [Bool.eq_false_iff, ne_eq, Prefix.matches_iff_getMsbD]
  decide

/-- A serialiser that writes every message as no bytes. -/
def emptyCodec : WireCodec :=
  ⟨fun _ => .ok [], fun _ => .ok .other, fun _ _ => .ok [], fun _ => .error 0,
    fun _ _ => .ok (.client, [])⟩

/-- `lonelySap`'s node once it knows the SAP of prefix `1`, at key `3`. -/
def knownSiblingKnowledge : NetworkKnowledge :=
  ⟨lonelySap, [0, 1], [⟨lonelySap, [0, 1]⟩, ⟨⟨⟨[true]⟩, 3, [], List.nodup_nil⟩, [0, 3]⟩], [], rfl⟩

theorem checkForEntropy_redirect_sibling :
    knownSiblingKnowledge.sectionPrefix.matches siblingMsg.dst.name = false ∧
      (∀ u b, checkForEntropy emptyCodec siblingMsg knownSiblingKnowledge = .ok (some (u, .redirect b)) →
        u ∈ knownSiblingKnowledge.sectionTree ∧ u.signedSap.sectionPrefix.matches siblingMsg.dst.name ∧
        u.signedSap ≠ knownSiblingKnowledge.signedSap ∧
        ∀ e ∈ knownSiblingKnowledge.sectionTree, e.signedSap.sectionPrefix.matches siblingMsg.dst.name →
          e.signedSap.sectionPrefix.bits.length ≤ u.signedSap.sectionPrefix.bits.length) ∧
      (checkForEntropy emptyCodec siblingMsg knownSiblingKnowledge = .error .noMatchingSection ↔
        ∀ e ∈ knownSiblingKnowledge.sectionTree,
          e.signedSap.sectionPrefix.matches siblingMsg.dst.name = false) :=
  ⟨lonelySap_not_matches,
    checkForEntropy_redirect emptyCodec siblingMsg knownSiblingKnowledge lonelySap_not_matches⟩

end MyNode

end SafeNetwork
