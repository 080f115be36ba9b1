import LeafageEvm.BigEndian
import LeafageEvm.Types
import LeafageEvm.Versions

/-! The keys of the archive's versioned tables: the owner (an address, or an address and a slot)
followed by a 32-byte height, plain in the legacy layout and inverted in the other. Heights of one
owner sort oldest first in the one and newest first in the other, and the reads seek backwards and
forwards accordingly. -/

namespace LeafageEvm
open Subtype List

def hashBytes (hash : H256) : Bytes := toBE 32 hash

/-- A 32-byte string as a number. -/
def hashOfBytes (bytes : Bytes) : H256 := Fin.ofNat (2 ^ 256) (ofBE bytes)

@[simp] theorem length_hashBytes (hash : H256) : (hashBytes hash).length = 32 := length_toBE _ _

theorem hashBytes_lt_iff {hash hash' : H256} : hashBytes hash < hashBytes hash' ↔ hash < hash' :=
  toBE_lt_toBE_iff 32 hash.isLt hash'.isLt

theorem hashBytes_injective : Function.Injective hashBytes := by
  intro hash hash' h
  rcases lt_trichotomy hash hash' with hlt | heq | hgt
  · exact absurd h (hashBytes_lt_iff.mpr hlt).ne
  · exact heq
  · exact absurd h (hashBytes_lt_iff.mpr hgt).ne'

@[simp] theorem hashOfBytes_hashBytes (hash : H256) : hashOfBytes (hashBytes hash) = hash := by
  rw [hashOfBytes, hashBytes, ofBE_toBE 32 hash.isLt]
  exact Fin.ofNat_val_eq_self hash

theorem hashBytes_hashOfBytes {bytes : Bytes} (h : bytes.length = 32) : hashBytes (hashOfBytes bytes) = bytes := by
  have hlt : ofBE bytes < 2 ^ 256 := by
    have := ofBE_lt bytes
    rwa [h] at this
  rw [hashBytes, hashOfBytes, Fin.val_ofNat, Nat.mod_eq_of_lt hlt, ← h]
  exact toBE_ofBE bytes

/-- `encode_block_num`: a block number in the last 8 of 32 bytes. -/
def encodeBlockNum (blockNum : U64) : Bytes := List.replicate 24 0 ++ toBE 8 blockNum

/-- `encode_block_num_desc`: the same of `u64::MAX - block_num`. -/
def encodeBlockNumDesc (blockNum : U64) : Bytes := encodeBlockNum blockNum.rev

def encodeVersionTail (inverted : Bool) (blockNum : U64) : Bytes :=
  if inverted then encodeBlockNumDesc blockNum else encodeBlockNum blockNum

def decodeVersionTail (inverted : Bool) (tail : Bytes) : U64 :=
  let raw : U64 := Fin.ofNat (2 ^ 64) (ofBE (tail.drop 24))
  if inverted then raw.rev else raw

def encodeAccountKey (inverted : Bool) (address : H256) (blockNum : U64) : Bytes :=
  hashBytes address ++ encodeVersionTail inverted blockNum

def encodeStorageKey (inverted : Bool) (address slot : H256) (blockNum : U64) : Bytes :=
  (hashBytes address ++ hashBytes slot) ++ encodeVersionTail inverted blockNum

/-! ### Heights -/

@[simp] theorem length_encodeBlockNum (n : U64) : (encodeBlockNum n).length = 32 := by
  rw [encodeBlockNum, length_append, length_replicate, length_toBE]

@[simp] theorem length_encodeVersionTail (inverted : Bool) (n : U64) : (encodeVersionTail inverted n).length = 32 := by
  cases inverted
  · exact length_encodeBlockNum n
  · exact length_encodeBlockNum n.rev

theorem encodeBlockNum_lt_iff {n m : U64} : encodeBlockNum n < encodeBlockNum m ↔ n < m := by
  rw [encodeBlockNum, encodeBlockNum, append_lt_append_iff rfl, toBE_lt_toBE_iff 8 n.isLt m.isLt]
  simp

theorem encodeBlockNum_le_iff {n m : U64} : encodeBlockNum n ≤ encodeBlockNum m ↔ n ≤ m := by
  rw [← not_lt, encodeBlockNum_lt_iff, not_lt]

theorem encodeBlockNum_injective : Function.Injective encodeBlockNum := by
  intro n m h
  exact le_antisymm (encodeBlockNum_le_iff.mp h.le) (encodeBlockNum_le_iff.mp h.ge)

theorem decodeVersionTail_encodeBlockNum (n : U64) : Fin.ofNat (2 ^ 64) (ofBE ((encodeBlockNum n).drop 24)) = n := by
  rw [encodeBlockNum, drop_left' (length_replicate ..), ofBE_toBE 8 n.isLt]
  exact Fin.ofNat_val_eq_self n

@[simp] theorem decodeVersionTail_encodeVersionTail (inverted : Bool) (n : U64) :
    decodeVersionTail inverted (encodeVersionTail inverted n) = n := by
  cases inverted with
  | false => exact decodeVersionTail_encodeBlockNum n
  | true =>
    have h := decodeVersionTail_encodeBlockNum n.rev
    simp only [decodeVersionTail, encodeVersionTail, encodeBlockNumDesc, if_true, h, Fin.rev_rev]

/-! ### Owners and their versions -/

/-- The owner part of a versioned key. -/
abbrev Owner (len : Nat) := { bytes : Bytes // bytes.length = len }

def accountOwner (address : H256) : Owner 32 := ⟨hashBytes address, length_hashBytes address⟩

def slotOwner (address slot : H256) : Owner 64 :=
  ⟨hashBytes address ++ hashBytes slot, by rw [List.length_append, length_hashBytes, length_hashBytes]⟩

def versionKey (inverted : Bool) {len : Nat} (owner : Owner len) (blockNum : U64) : Bytes :=
  owner.1 ++ encodeVersionTail inverted blockNum

def ownedVersion (inverted : Bool) {len : Nat} (owner : Owner len) (key : Bytes) : Option U64 :=
  if key.take len = owner.1 then some (decodeVersionTail inverted (key.drop len)) else none

theorem exists_slotOwner (owner : Owner 64) : ∃ address slot, owner = slotOwner address slot := by
  refine ⟨hashOfBytes (owner.1.take 32), hashOfBytes (owner.1.drop 32), Subtype.ext ?_⟩
  have htake : (owner.1.take 32).length = 32 := by rw [length_take, owner.2]; rfl
  have hdrop : (owner.1.drop 32).length = 32 := by rw [length_drop, owner.2]
  show owner.1 = hashBytes _ ++ hashBytes _
  rw [hashBytes_hashOfBytes htake, hashBytes_hashOfBytes hdrop, take_append_drop]

theorem slotOwner_inj {address address' slot slot' : H256}
    (h : slotOwner address slot = slotOwner address' slot') : address = address' ∧ slot = slot' := by
  have happend := append_inj (congrArg val h) (by rw [length_hashBytes, length_hashBytes])
  exact ⟨hashBytes_injective happend.1, hashBytes_injective happend.2⟩

theorem accountOwner_injective : Function.Injective accountOwner := by
  intro _ _ h
  exact hashBytes_injective (congrArg val h)

variable {inverted : Bool} {len : Nat}

section
variable (inverted : Bool) (owner : Owner len) (n : U64)

@[simp] theorem take_versionKey : (versionKey inverted owner n).take len = owner.1 := take_left' owner.2

@[simp] theorem drop_versionKey : (versionKey inverted owner n).drop len = encodeVersionTail inverted n :=
  drop_left' owner.2

@[simp] theorem ownedVersion_self : ownedVersion inverted owner (versionKey inverted owner n) = some n := by
  simp [ownedVersion]
end

theorem ownedVersion_of_ne {owner owner' : Owner len} (n : U64) (h : owner' ≠ owner) :
    ownedVersion inverted owner (versionKey inverted owner' n) = none := by
  rw [ownedVersion, take_versionKey, if_neg]
  exact fun heq => h (Subtype.ext heq)

theorem versionKey_inj {owner owner' : Owner len} {n n' : U64}
    (h : versionKey inverted owner n = versionKey inverted owner' n') : owner = owner' ∧ n = n' := by
  have howner : owner.1 = owner'.1 := by
    rw [← take_versionKey inverted owner n, h, take_versionKey]
  have hn : some n = some n' := by
    rw [← ownedVersion_self inverted owner n, h, Subtype.ext howner, ownedVersion_self]
  exact ⟨Subtype.ext howner, Option.some.inj hn⟩

/-- Inverted heights place versions newest first. -/
theorem versionKey_places_desc : PlacesVersions (· ≤ ·) (versionKey true : Owner len → U64 → Bytes) where
  le_iff := by
    intro _ n m
    rw [versionKey, versionKey, append_le_append_iff rfl]
    simp [encodeVersionTail, encodeBlockNumDesc, encodeBlockNum_le_iff]
  between := by
    intro owner owner' n m l hlow hhigh
    exact Subtype.ext (front_eq_of_between (owner.2.trans owner'.2.symm) hlow hhigh)

/-- Plain heights place them oldest first. -/
theorem versionKey_places_asc : PlacesVersions (· ≥ ·) (versionKey false : Owner len → U64 → Bytes) where
  le_iff := by
    intro _ n m
    rw [ge_iff_le, versionKey, versionKey, append_le_append_iff rfl]
    simp [encodeVersionTail, encodeBlockNum_le_iff]
  between := by
    intro owner owner' n m l hhigh hlow
    exact Subtype.ext (front_eq_of_between (owner.2.trans owner'.2.symm) hlow hhigh)

end LeafageEvm
