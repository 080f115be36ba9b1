import LeafageEvm.OrderedMap

/-! Versions of a value by height, and the reads of such a table. A read at a height asks for the
newest version at or below it. In an ordered map the versions of one owner lie next to each other, so
positioning finds it: scanning from the height asked for towards older versions, the first entry met
is the answer if it is the owner's at all. -/

namespace LeafageEvm
open Option List
variable {P N K V : Type} [LinearOrder N]
variable {versions : N → Option V} {h : N} {read : Option (N × V)} {v : V} {writes : List (N × V)}

/-! ### The newest version at or below a height -/

/-- `read` is what reading `versions` at height `h` gives: the newest version at or below `h`, or
nothing if there is none. -/
def ReadsLatest (versions : N → Option V) (h : N) : Option (N × V) → Prop
  | some (n, v) => versions n = some v ∧ n ≤ h ∧ ∀ m w, versions m = some w → m ≤ h → m ≤ n
  | none => ∀ m w, versions m = some w → ¬ m ≤ h

/-- A read holds at every height between the version it found and the one it was made at. -/
theorem ReadsLatest.restrict {h' n : N}
    (hread : ReadsLatest versions h (some (n, v))) (hlow : n ≤ h') (hhigh : h' ≤ h) :
    ReadsLatest versions h' (some (n, v)) :=
  ⟨hread.1, hlow, fun m w hm hle => hread.2.2 m w hm (hle.trans hhigh)⟩

theorem ReadsLatest.restrict_none {h' : N} (hread : ReadsLatest versions h none)
    (hhigh : h' ≤ h) : ReadsLatest versions h' none :=
  fun m w hm hle => hread m w hm (hle.trans hhigh)

/-- It holds further up as long as there is no newer version. -/
theorem ReadsLatest.extend {h' n : N} (hread : ReadsLatest versions h (some (n, v))) (hle : h ≤ h')
    (hnone : ∀ m, n < m → m ≤ h' → versions m = none) : ReadsLatest versions h' (some (n, v)) := by
  refine ⟨hread.1, hread.2.1.trans hle, fun m w hm hmh => ?_⟩
  by_contra hlt
  rw [hnone m (not_le.mp hlt) hmh] at hm
  cases hm

section
variable (hread : ReadsLatest versions h read)
include hread
theorem ReadsLatest.unique {read' : Option (N × V)} (hread' : ReadsLatest versions h read') : read = read' := by
  match read, read' with
  | none, none => rfl
  | some (n, v), none => exact absurd hread.2.1 (hread' n v hread.1)
  | none, some (n, v) => exact absurd hread'.2.1 (hread n v hread'.1)
  | some (n, v), some (n', v') =>
    have hle := hread'.2.2 n v hread.1 hread.2.1
    have hge := hread.2.2 n' v' hread'.1 hread'.2.1
    obtain rfl := le_antisymm hle hge
    have hv := hread.1.symm.trans hread'.1
    rw [some.inj hv]

theorem ReadsLatest.congr {versions' : N → Option V} (heq : ∀ n, n ≤ h → versions' n = versions n) :
    ReadsLatest versions' h read := by
  match read with
  | none =>
    intro m w hm hle
    rw [heq m hle] at hm
    exact hread m w hm hle
  | some (n, v) =>
    refine ⟨by rw [heq n hread.2.1]; exact hread.1, hread.2.1, ?_⟩
    intro m w hm hle
    rw [heq m hle] at hm
    exact hread.2.2 m w hm hle

/-- It holds further up, whatever it is, if there are no versions between. -/
theorem ReadsLatest.extend_of_none {h' : N} (hle : h ≤ h') (hnone : ∀ m, h < m → m ≤ h' → versions m = none) :
    ReadsLatest versions h' read := by
  have hbelow : ∀ m w, versions m = some w → m ≤ h' → m ≤ h := by
    intro m w hm hmh
    by_contra hlt
    rw [hnone m (not_le.mp hlt) hmh] at hm
    cases hm
  match read with
  | none => exact fun m w hm hmh => hread m w hm (hbelow m w hm hmh)
  | some (n, v) => exact ⟨hread.1, hread.2.1.trans hle, fun m w hm hmh => hread.2.2 m w hm (hbelow m w hm hmh)⟩
end

theorem ReadsLatest.map {W : Type} (f : V → W) (hread : ReadsLatest versions h read) :
    ReadsLatest (fun n => (versions n).map f) h (read.map fun found => (found.1, f found.2)) := by
  match read with
  | none =>
    intro m w hm
    obtain ⟨v, hv, -⟩ := map_eq_some_iff.mp hm
    exact hread m v hv
  | some (n, v) =>
    refine ⟨map_eq_some_iff.mpr ⟨v, hread.1, rfl⟩, hread.2.1, ?_⟩
    intro m w hm hle
    obtain ⟨v', hv', -⟩ := map_eq_some_iff.mp hm
    exact hread.2.2 m v' hv' hle

/-- The writes of a history, newest first, as versions. -/
def versionsOf (writes : List (N × V)) (n : N) : Option V :=
  (writes.find? fun write => write.1 = n).map (·.2)

theorem versionsOf_cons (n : N) (v : V) (writes : List (N × V)) (m : N) :
    versionsOf ((n, v) :: writes) m = if n = m then some v else versionsOf writes m := by
  split <;> simp_all [versionsOf]

theorem versionsOf_toList_append (n : N) (write : Option V) (writes : List (N × V)) (m : N) :
    versionsOf ((write.map fun v => (n, v)).toList ++ writes) m =
      (if m = n then write else none).or (versionsOf writes m) := by
  cases write with
  | none => simp
  | some v =>
    rw [map_some, toList_some, singleton_append, versionsOf_cons]
    by_cases hm : n = m
    · rw [if_pos hm, if_pos hm.symm, some_or]
    · rw [if_neg hm, if_neg (Ne.symm hm), none_or]

theorem mem_of_versionsOf {n : N} (h : versionsOf writes n = some v) : (n, v) ∈ writes := by
  obtain ⟨write, hfind, rfl⟩ := map_eq_some_iff.mp h
  have hn : write.1 = n := by simpa using find?_some hfind
  rw [← hn]
  exact mem_of_find?_eq_some hfind

/-- In a history that goes back in height, the first write at or below a height is the newest. -/
theorem readsLatest_find? (hsorted : writes.Pairwise fun a b => b.1 < a.1) (h : N) :
    ReadsLatest (versionsOf writes) h (writes.find? fun write => write.1 ≤ h) := by
  induction writes with
  | nil =>
    nofun
  | cons write _ ih =>
    obtain ⟨n, v⟩ := write
    obtain ⟨hfirst, hrest⟩ := pairwise_cons.mp hsorted
    by_cases hle : n ≤ h
    · rw [find?_cons_of_pos (by simpa using hle)]
      refine ⟨by rw [versionsOf_cons, if_pos rfl], hle, ?_⟩
      intro m w hm _
      rcases mem_cons.mp (mem_of_versionsOf hm) with heq | hmem
      · exact (congrArg Prod.fst heq).le
      · exact (hfirst (m, w) hmem).le
    rw [find?_cons_of_neg (by simpa using hle)]
    refine (ih hrest).congr fun m hm => ?_
    rw [versionsOf_cons, if_neg]
    rintro rfl
    exact hle hm

/-! ### Versions in an ordered map -/

variable [LinearOrder K] (m : OrderedMap K V)

/-- `found` is the first entry of the map from `k` on, in the direction `le`. -/
def FirstFrom (le : K → K → Prop) (m : OrderedMap K V) (k : K) : Option (K × V) → Prop
  | some (k', v) => m.get k' = some v ∧ le k k' ∧ ∀ k'' v'', m.get k'' = some v'' → le k k'' → le k' k''
  | none => ∀ k' v, m.get k' = some v → ¬ le k k'

theorem seek_firstFrom (k : K) : FirstFrom (· ≤ ·) m k (m.seek k) := by
  cases h : m.seek k with
  | some => exact m.seek_some h
  | none => exact fun _ _ hget => not_le.mpr (m.seek_none h hget)

theorem seekForPrev_firstFrom (k : K) : FirstFrom (· ≥ ·) m k (m.seekForPrev k) := by
  cases h : m.seekForPrev k with
  | some => exact m.seekForPrev_some h
  | none => exact fun _ _ hget => not_le.mpr (m.seekForPrev_none h hget)

/-- Keys that place the versions of each owner next to each other, older ones further on in the
direction `le`. -/
structure PlacesVersions (le : K → K → Prop) (encode : P → N → K) : Prop where
  le_iff : ∀ {p n m}, le (encode p n) (encode p m) ↔ m ≤ n
  between : ∀ {p q n m l}, le (encode p n) (encode q m) → le (encode q m) (encode p l) → q = p

def HoldsVersions (encode : P → N → K) (m : OrderedMap K V) : Prop :=
  ∀ k v, m.get k = some v → ∃ p n, k = encode p n

/-- **Positioning reads the newest version**: the first entry from the height asked for is it, if it
is the owner's, and if it is not the owner has no version at or below the height. -/
theorem PlacesVersions.readsLatest {le : K → K → Prop} {encode : P → N → K}
    (hplaces : PlacesVersions le encode) {m : OrderedMap K V} (hholds : HoldsVersions encode m) {p : P}
    {found : Option (K × V)} (hfound : FirstFrom le m (encode p h) found) (decode : K → Option N)
    (howner : ∀ n, decode (encode p n) = some n) (hother : ∀ q n, q ≠ p → decode (encode q n) = none) :
    ReadsLatest (fun n => m.get (encode p n)) h
      (found.bind fun entry => (decode entry.1).map fun n => (n, entry.2)) := by
  match found with
  | none =>
    intro n w hget hle
    exact hfound _ w hget (hplaces.le_iff.mpr hle)
  | some (k, v) =>
    obtain ⟨hget, hfrom, hfirst⟩ := hfound
    obtain ⟨q, n, rfl⟩ := hholds k v hget
    by_cases hq : q = p
    · subst hq
      simp only [bind_some, howner]
      refine ⟨hget, hplaces.le_iff.mp hfrom, ?_⟩
      intro m' w hm' hle
      exact hplaces.le_iff.mp (hfirst _ w hm' (hplaces.le_iff.mpr hle))
    · simp only [bind_some, hother q n hq]
      intro m' w hm' hle
      exact hq (hplaces.between hfrom (hfirst _ w hm' (hplaces.le_iff.mpr hle)))

end LeafageEvm
