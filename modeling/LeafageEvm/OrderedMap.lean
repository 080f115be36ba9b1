import Mathlib.Data.List.Find
import Mathlib.Data.List.Nodup

/-! A map kept in key order, with the point and the positioning operations of an ordered key-value
store. -/

namespace LeafageEvm
open Option List

/-- Entries by strictly increasing key. -/
structure OrderedMap (K V : Type) [LinearOrder K] where
  entries : List (K × V)
  sorted : entries.Pairwise fun a b => a.1 < b.1

namespace OrderedMap

variable {K V : Type} [LinearOrder K] {entries : List (K × V)} {entry : K × V} {p : K × V → Bool}

def empty : OrderedMap K V := ⟨[], .nil⟩

def get (m : OrderedMap K V) (k : K) : Option V := (m.entries.find? fun entry => entry.1 = k).map (·.2)

/-- Put an entry in its place among sorted ones. -/
def putEntry (k : K) (v : V) : List (K × V) → List (K × V)
  | [] => [(k, v)]
  | entry :: entries =>
    if k < entry.1 then (k, v) :: entry :: entries
    else if k = entry.1 then (k, v) :: entries
    else entry :: putEntry k v entries

theorem mem_putEntry {k : K} {v : V} (h : entry ∈ putEntry k v entries) : entry = (k, v) ∨ entry ∈ entries := by
  induction entries with
  | nil => exact .inl (mem_singleton.mp h)
  | cons _ _ ih =>
    rw [putEntry] at h
    split at h
    · exact mem_cons.mp h
    split at h
    · exact (mem_cons.mp h).imp_right (mem_cons_of_mem _)
    · rcases mem_cons.mp h with rfl | hrest
      · exact .inr (.head _)
      · exact (ih hrest).imp_right (mem_cons_of_mem _)

theorem sorted_putEntry (k : K) (v : V)
    (h : entries.Pairwise fun a b => a.1 < b.1) : (putEntry k v entries).Pairwise fun a b => a.1 < b.1 := by
  induction entries with
  | nil => exact pairwise_singleton ..
  | cons _ _ ih =>
    obtain ⟨hfirst, hrest⟩ := pairwise_cons.mp h
    rw [putEntry]
    split
    · next hlt =>
      refine pairwise_cons.mpr ⟨?_, h⟩
      intro entry hentry
      rcases mem_cons.mp hentry with rfl | hmem
      · exact hlt
      · exact hlt.trans (hfirst entry hmem)
    · next hge =>
      split
      · next heq => exact pairwise_cons.mpr ⟨by rw [heq]; exact hfirst, hrest⟩
      · next hne =>
        refine pairwise_cons.mpr ⟨?_, ih hrest⟩
        intro entry hentry
        rcases mem_putEntry hentry with rfl | hmem
        · exact lt_of_le_of_ne (not_lt.mp hge) (Ne.symm hne)
        · exact hfirst entry hmem

def put (m : OrderedMap K V) (k : K) (v : V) : OrderedMap K V :=
  ⟨putEntry k v m.entries, sorted_putEntry k v m.sorted⟩

/-- Change every value. -/
def mapValues {W : Type} (m : OrderedMap K V) (f : V → W) : OrderedMap K W :=
  ⟨m.entries.map fun entry => (entry.1, f entry.2), List.pairwise_map.mpr m.sorted⟩

/-- Keep the entries that satisfy `keep`. -/
def retain (m : OrderedMap K V) (keep : K → V → Bool) : OrderedMap K V :=
  ⟨m.entries.filter fun entry => keep entry.1 entry.2, m.sorted.filter _⟩

/-- The entry with the smallest key at or above `k`. -/
def seek (m : OrderedMap K V) (k : K) : Option (K × V) := m.entries.find? fun entry => k ≤ entry.1

/-- The entry with the greatest key at or below `k`. -/
def seekForPrev (m : OrderedMap K V) (k : K) : Option (K × V) :=
  m.entries.reverse.find? fun entry => entry.1 ≤ k

/-- The entry with the greatest key below `k`. -/
def prev (m : OrderedMap K V) (k : K) : Option (K × V) :=
  m.entries.reverse.find? fun entry => entry.1 < k

def last (m : OrderedMap K V) : Option (K × V) := m.entries.getLast?

/-- The entry with the greatest key at or below `k`, by way of the one at or above it. -/
def seekLe (m : OrderedMap K V) (k : K) : Option (K × V) :=
  match m.seek k with
  | some entry => if entry.1 = k then some entry else m.prev entry.1
  | none => m.last

variable {m : OrderedMap K V} {k k' : K} {v v' : V}

/-! ### Lookups -/

theorem entry_ext {entry' : K × V} (h : entry ∈ m.entries) (h' : entry' ∈ m.entries)
    (hkey : entry.1 = entry'.1) : entry = entry' := by
  have hnodup : (m.entries.map (·.1)).Nodup := pairwise_map.mpr (m.sorted.imp (·.ne))
  exact inj_on_of_nodup_map hnodup h h' hkey

theorem get_eq_some : m.get k = some v ↔ (k, v) ∈ m.entries := by
  constructor
  · intro h
    obtain ⟨entry, hfind, rfl⟩ := map_eq_some_iff.mp h
    have hkey : entry.1 = k := by simpa using find?_some hfind
    rw [← hkey]
    exact mem_of_find?_eq_some hfind
  · intro hmem
    cases hfind : m.entries.find? (fun entry => entry.1 = k) with
    | none => exact absurd (decide_eq_true rfl) (find?_eq_none.mp hfind (k, v) hmem)
    | some entry =>
      have hkey : entry.1 = k := by simpa using find?_some hfind
      have heq := entry_ext (mem_of_find?_eq_some hfind) hmem hkey
      rw [get, hfind, heq]
      rfl

/-- Maps are told apart by their lookups. -/
theorem get_eq_iff {m' : OrderedMap K V} {k k' : K} :
    m.get k = m'.get k' ↔ ∀ v, (k, v) ∈ m.entries ↔ (k', v) ∈ m'.entries := by
  constructor
  · intro h v
    rw [← get_eq_some, ← get_eq_some, h]
  · intro h
    apply ext
    intro v
    rw [get_eq_some, get_eq_some, h v]

theorem mem_putEntry_iff (hsorted : entries.Pairwise fun a b => a.1 < b.1) :
    entry ∈ putEntry k v entries ↔ entry = (k, v) ∨ entry ∈ entries ∧ entry.1 ≠ k := by
  induction entries with
  | nil => simp [putEntry]
  | cons first entries ih =>
    obtain ⟨hfirst, hrest⟩ := pairwise_cons.mp hsorted
    rw [putEntry]
    split
    · next hlt =>
      have habove : ∀ e ∈ first :: entries, e.1 ≠ k := by
        intro e he
        rcases mem_cons.mp he with rfl | hmem
        · exact hlt.ne'
        · exact (hlt.trans (hfirst e hmem)).ne'
      rw [mem_cons]
      exact or_congr_right (iff_self_and.mpr (habove entry))
    split
    · next heq =>
      rw [mem_cons, mem_cons]
      constructor
      · rintro (hnew | hmem)
        · exact .inl hnew
        · exact .inr ⟨.inr hmem, heq ▸ (hfirst entry hmem).ne'⟩
      · rintro (hnew | ⟨rfl | hmem, hne⟩)
        · exact .inl hnew
        · exact absurd heq.symm hne
        · exact .inr hmem
    · next hne =>
      rw [mem_cons, mem_cons, ih hrest]
      constructor
      · rintro (rfl | hnew | ⟨hmem, hkey⟩)
        · exact .inr ⟨.inl rfl, Ne.symm hne⟩
        · exact .inl hnew
        · exact .inr ⟨.inr hmem, hkey⟩
      · rintro (hnew | ⟨rfl | hmem, hkey⟩)
        · exact .inr (.inl hnew)
        · exact .inl rfl
        · exact .inr (.inr ⟨hmem, hkey⟩)

theorem mem_put : entry ∈ (m.put k v).entries ↔ entry = (k, v) ∨ entry ∈ m.entries ∧ entry.1 ≠ k :=
  mem_putEntry_iff m.sorted

section
variable (m : OrderedMap K V)

@[simp] theorem get_put_self (k : K) (v : V) : (m.put k v).get k = some v := by
  rw [get_eq_some, mem_put]
  exact .inl rfl

theorem get_put_of_ne (v : V) (h : k' ≠ k) : (m.put k v).get k' = m.get k' := by
  rw [get_eq_iff]
  intro v'
  rw [mem_put]
  simp [h]

theorem get_mapValues {W : Type} (f : V → W) (k : K) : (m.mapValues f).get k = (m.get k).map f := by
  apply ext
  intro w
  rw [get_eq_some, map_eq_some_iff, mapValues, List.mem_map]
  constructor
  · rintro ⟨⟨_, v⟩, hmem, heq⟩
    cases heq
    exact ⟨v, get_eq_some.mpr hmem, rfl⟩
  · rintro ⟨v, hget, rfl⟩
    exact ⟨(k, v), get_eq_some.mp hget, rfl⟩
end

/-! ### Positions -/

theorem find?_first {A : Type} {r : A → A → Prop} {l : List A} (hsorted : l.Pairwise r) {p : A → Bool}
    {a : A} (h : l.find? p = some a) : a ∈ l ∧ p a = true ∧ ∀ b ∈ l, p b = true → b = a ∨ r a b := by
  obtain ⟨hp, _, _, rfl, hbefore⟩ := find?_eq_some_iff_append.mp h
  refine ⟨mem_append_right _ (.head _), hp, ?_⟩
  intro b hb hpb
  rcases mem_append.mp hb with hmem | hmem
  · have := hbefore b hmem
    simp [hpb] at this
  · rcases mem_cons.mp hmem with rfl | hafter
    · exact .inl rfl
    · exact .inr ((pairwise_cons.mp (pairwise_append.mp hsorted).2.1).1 b hafter)

theorem seek_some (h : m.seek k = some (k', v)) :
    m.get k' = some v ∧ k ≤ k' ∧ ∀ k'' v'', m.get k'' = some v'' → k ≤ k'' → k' ≤ k'' := by
  obtain ⟨hmem, hle, hfirst⟩ := find?_first m.sorted h
  refine ⟨get_eq_some.mpr hmem, of_decide_eq_true hle, ?_⟩
  intro k'' v'' hget hle''
  rcases hfirst (k'', v'') (get_eq_some.mp hget) (decide_eq_true hle'') with heq | hlt
  · rw [Prod.ext_iff] at heq
    exact heq.1.ge
  · exact hlt.le

theorem seek_none (h : m.seek k = none) (hget : m.get k' = some v) : k' < k := by
  have := find?_eq_none.mp h (k', v) (get_eq_some.mp hget)
  simpa using this

/-- The last entry that qualifies. -/
theorem reverse_find?_some (h : m.entries.reverse.find? p = some (k', v)) :
    m.get k' = some v ∧ p (k', v) = true ∧
      ∀ k'' v'', m.get k'' = some v'' → p (k'', v'') = true → k'' ≤ k' := by
  obtain ⟨hmem, hp, hfirst⟩ := find?_first (pairwise_reverse.mpr m.sorted) h
  refine ⟨get_eq_some.mpr (mem_reverse.mp hmem), hp, ?_⟩
  intro k'' v'' hget hp''
  rcases hfirst (k'', v'') (mem_reverse.mpr (get_eq_some.mp hget)) hp'' with heq | hlt
  · rw [Prod.ext_iff] at heq
    exact heq.1.le
  · exact hlt.le

theorem reverse_find?_none (h : m.entries.reverse.find? p = none) (hget : m.get k' = some v) : p (k', v) = false := by
  have hmem := mem_reverse.mpr (get_eq_some.mp hget)
  exact Bool.eq_false_iff.mpr (find?_eq_none.mp h (k', v) hmem)

theorem seekForPrev_some (h : m.seekForPrev k = some (k', v)) :
    m.get k' = some v ∧ k' ≤ k ∧ ∀ k'' v'', m.get k'' = some v'' → k'' ≤ k → k'' ≤ k' := by
  obtain ⟨hget, hle, hmax⟩ := reverse_find?_some h
  exact ⟨hget, of_decide_eq_true hle, fun k'' v'' hget'' hle'' => hmax k'' v'' hget'' (decide_eq_true hle'')⟩

theorem seekForPrev_none (h : m.seekForPrev k = none) (hget : m.get k' = some v) : k < k' :=
  not_le.mp (of_decide_eq_false (reverse_find?_none h hget))

theorem prev_some (h : m.prev k = some (k', v)) :
    m.get k' = some v ∧ k' < k ∧ ∀ k'' v'', m.get k'' = some v'' → k'' < k → k'' ≤ k' := by
  obtain ⟨hget, hlt, hmax⟩ := reverse_find?_some h
  exact ⟨hget, of_decide_eq_true hlt, fun k'' v'' hget'' hlt'' => hmax k'' v'' hget'' (decide_eq_true hlt'')⟩

theorem prev_none (h : m.prev k = none) (hget : m.get k' = some v) : k ≤ k' :=
  not_lt.mp (of_decide_eq_false (reverse_find?_none h hget))

theorem seekLe_eq_seekForPrev (m : OrderedMap K V) (k : K) : m.seekLe k = m.seekForPrev k := by
  cases hseek : m.seek k with
  | none =>
    -- All keys are below, so the last entry is the first one met from the end.
    have hall : ∀ entry ∈ m.entries.reverse, entry.1 ≤ k := by
      intro _ hentry
      exact (seek_none hseek (get_eq_some.mpr (mem_reverse.mp hentry))).le
    rw [seekLe, hseek, seekForPrev, last, getLast?_eq_head?_reverse]
    cases hentries : m.entries.reverse with
    | nil => rfl
    | cons entry =>
      rw [hentries] at hall
      rw [find?_cons_of_pos (by simpa using hall entry (.head _))]
      rfl
  | some entry =>
    obtain ⟨hget, hle, hfirst⟩ := seek_some hseek
    simp only [seekLe, hseek]
    by_cases hk : entry.1 = k
    · rw [if_pos hk]
      cases hprev : m.seekForPrev k with
      | none => exact absurd hk (seekForPrev_none hprev hget).ne'
      | some found =>
        obtain ⟨hget', hle', hmax⟩ := seekForPrev_some hprev
        have hge : k ≤ found.1 := hk ▸ hmax entry.1 entry.2 hget hk.le
        exact congrArg some (entry_ext (get_eq_some.mp hget) (get_eq_some.mp hget')
          (hk.trans (le_antisymm hge hle')))
    rw [if_neg hk]
    apply find?_congr
    intro other hother
    have hother' := get_eq_some.mpr (mem_reverse.mp hother)
    rw [decide_eq_decide]
    constructor
    · intro hlt
      by_contra hgt
      exact absurd (hfirst other.1 other.2 hother' (not_le.mp hgt).le) hlt.not_ge
    · intro hle'
      exact hle'.trans_lt (lt_of_le_of_ne hle (Ne.symm hk))

end OrderedMap
end LeafageEvm
