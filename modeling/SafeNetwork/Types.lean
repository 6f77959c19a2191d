import Mathlib.Data.List.Nodup

/-!
# Names, prefixes and section authorities

The values the anti-entropy engine compares: 256-bit names (`XorName`), ordered by XOR
distance to a target (`XorName.cmpDistance`); section prefixes (`Prefix`), which own the
names that start with their bits (`Prefix.matches`); BLS section keys; section authority
providers (`SectionAuthorityProvider`), whose elders have distinct names; member states
(`NodeState`); and the update a node sends to bring a peer's knowledge of a section up to
date (`SectionTreeUpdate`).

Signatures are left out: no function modelled here reads one, and the checks of
`update_knowledge_if_valid` that do are modelled on the keys they are made with.
-/

namespace SafeNetwork

/-- A 256-bit name (`xor_name::XorName`), most significant bit first. -/
abbrev XorName := BitVec 256

/-- The XOR distance from `target` to `n`, as a number. -/
def XorName.distance (target n : XorName) : Nat := (n ^^^ target).toNat

/-- `target.cmp_distance(lhs, rhs)`: `lt` when `lhs` is closer to `target` than `rhs`.
The crate compares the XORed bytes from the most significant one, which is the order of
the numbers they spell. -/
def XorName.cmpDistance (target lhs rhs : XorName) : Ordering :=
  compare (target.distance lhs) (target.distance rhs)

/-- `k` bits of a name from place `i` on. -/
def XorName.bitsFrom (n : XorName) : Nat → Nat → List Bool
  | 0, _ => []
  | k + 1, i => n.getMsbD i :: n.bitsFrom k (i + 1)

/-- The 256 bits of a name, most significant first. -/
def XorName.bits (n : XorName) : List Bool := n.bitsFrom 256 0

theorem XorName.length_bitsFrom (n : XorName) (k i : Nat) : (n.bitsFrom k i).length = k := by
  induction k generalizing i <;> simp_all [bitsFrom]

theorem XorName.getElem_bitsFrom (n : XorName) (k i j : Nat) (h : j < (n.bitsFrom k i).length) :
    (n.bitsFrom k i)[j] = n.getMsbD (i + j) := by
  induction k generalizing i j with
  | zero => simp [bitsFrom] at h
  | succ k ih =>
    cases j with
    | zero => rfl
    | succ j => simp only [bitsFrom, List.getElem_cons_succ, ih, Nat.add_assoc, Nat.add_comm 1 j]

/-- A section prefix (`xor_name::Prefix`): the leading bits its names share. -/
structure Prefix where
  bits : List Bool
  deriving DecidableEq, Repr

/-- `Prefix::matches`: the name starts with the prefix's bits. -/
def Prefix.matches (p : Prefix) (n : XorName) : Bool := p.bits.isPrefixOf n.bits

theorem Prefix.matches_iff (p : Prefix) (n : XorName) : p.matches n ↔ p.bits <+: n.bits :=
  List.isPrefixOf_iff_prefix

/-- A prefix matches a name when it has at most 256 bits, each the name's bit at its
place. -/
theorem Prefix.matches_iff_getMsbD (p : Prefix) (n : XorName) :
    p.matches n ↔ p.bits.length ≤ 256 ∧ ∀ i (h : i < p.bits.length), p.bits[i] = n.getMsbD i := by
  have hl : n.bits.length = 256 := n.length_bitsFrom 256 0
  rw [Prefix.matches_iff, List.prefix_iff_eq_take]
  constructor
  · intro h
    refine ⟨by rw [h]; simp [hl], fun i hi => ?_⟩
    rw [List.getElem_of_eq h]
    simp only [XorName.bits, List.getElem_take, XorName.getElem_bitsFrom, Nat.zero_add]
  · rintro ⟨hlen, he⟩
    refine List.ext_getElem (by simp [hl, hlen]) fun i h1 h2 => ?_
    rw [he i h1]
    simp only [XorName.bits, List.getElem_take, XorName.getElem_bitsFrom, Nat.zero_add]

/-- Modelled from the spec: `Prefix::sibling` (§3 Prefix: two prefixes of equal length that
differ only in the last bit are siblings). The empty prefix has no last bit and is its own
sibling. -/
def Prefix.sibling (p : Prefix) : Prefix :=
  match p.bits.getLast? with
  | some b => ⟨p.bits.dropLast ++ [!b]⟩
  | none => p

@[simp] theorem Prefix.sibling_root : (⟨[]⟩ : Prefix).sibling = ⟨[]⟩ := rfl

@[simp] theorem Prefix.sibling_append (bits : List Bool) (b : Bool) :
    (⟨bits ++ [b]⟩ : Prefix).sibling = ⟨bits ++ [!b]⟩ := by
  simp [Prefix.sibling]

/-- A BLS public key. Section keys are only compared with each other. -/
abbrev BlsPublicKey := Nat

/-- A peer: its name and its socket address. -/
structure Peer where
  name : XorName
  addr : Nat
  deriving DecidableEq, Repr

/-- A section authority provider: the section's prefix, its key and its elders. The elders
are keyed by name, so their names are distinct. -/
structure SectionAuthorityProvider where
  sectionPrefix : Prefix
  sectionKey : BlsPublicKey
  elders : List Peer
  elders_nodup : (elders.map Peer.name).Nodup
  deriving DecidableEq

/-- Where a member of a section stands. -/
inductive MembershipState where
  | joined
  | left
  | relocated (dst : XorName)
  deriving DecidableEq, Repr

/-- A member's state (`NodeState`): its name and where it stands. -/
structure NodeState where
  name : XorName
  state : MembershipState
  deriving DecidableEq, Repr

/-- What brings a peer's knowledge of a section up to date: the section's signed SAP and a
chain of section keys, oldest first, that proves it (`SectionTreeUpdate`). -/
structure SectionTreeUpdate where
  signedSap : SectionAuthorityProvider
  proofChain : List BlsPublicKey
  deriving DecidableEq

/-- The destination of a wire message: a name, and the key the sender holds for the
section of that name (`Dst`). -/
structure Dst where
  name : XorName
  sectionKey : BlsPublicKey
  deriving DecidableEq, Repr

/-- Why a node must join again. -/
inductive RejoinReason where
  | removedFromSection
  deriving DecidableEq, Repr

/-- The node's errors that the modelled functions raise or pass on: those of serialisation
come as `messaging`, those of the other collaborators outside the core as `other`. -/
inductive Error where
  | noMatchingSection
  | untrustedUpdate
  | rejoinRequired (reason : RejoinReason)
  | cannotHandleQuery (query : Nat)
  | configuration (msg : String)
  | messaging (code : Nat)
  | other (code : Nat)
  deriving DecidableEq, Repr

end SafeNetwork
