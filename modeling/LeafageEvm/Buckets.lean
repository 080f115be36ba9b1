import Mathlib.Data.List.Count
import Mathlib.Data.List.Sort

/-! Sorted lists cut by a test that holds up to some point: what comes before is what passes it; and cut
at several points, the parts put together again. And entries in bucket order with a table of offsets: the
entries of a bucket lie between its offset and the next. Offsets may be stored in a width that they do
not fit, so what is stored goes through `wrap`. -/

namespace LeafageEvm
open Nat List

section Front
variable {A : Type} {p : A → Bool} {l : List A}

section
variable (h : l.Pairwise fun a b => p b = true → p a = true)
include h
/-- The front of a list is all that passes the test, if the test holds of what precedes what passes. -/
theorem takeWhile_eq_filter : l.takeWhile p = l.filter p := by
  induction l with
  | nil => rfl
  | cons a l ih =>
    obtain ⟨hfirst, hrest⟩ := pairwise_cons.mp h
    by_cases ha : p a = true
    · rw [takeWhile_cons_of_pos ha, filter_cons_of_pos ha, ih hrest]
    rw [takeWhile_cons_of_neg ha, eq_comm, filter_eq_nil_iff]
    intro b hb hp
    rcases mem_cons.mp hb with rfl | hmem
    · exact ha hp
    · exact ha (hfirst b hmem hp)

theorem dropWhile_eq_filter : l.dropWhile p = l.filter fun a => !p a := by
  induction l with
  | nil => rfl
  | cons a l ih =>
    obtain ⟨hfirst, hrest⟩ := pairwise_cons.mp h
    by_cases ha : p a = true
    · rw [dropWhile_cons_of_pos ha, filter_cons_of_neg (by simpa using ha), ih hrest]
    rw [dropWhile_cons_of_neg ha, eq_comm, filter_eq_self]
    intro b hb
    rcases mem_cons.mp hb with rfl | hmem
    · simpa using ha
    · simpa using fun hp => ha (hfirst b hmem hp)
end

theorem filter_append_filter {q r : A → Bool} (hor : ∀ a ∈ l, r a = (p a || q a)) (hnot : ∀ a ∈ l, q a = true → p a = false)
    (hfirst : l.Pairwise fun a b => q a = true → p b = false) : l.filter p ++ l.filter q = l.filter r := by
  induction l with
  | nil => rfl
  | cons a l ih =>
    obtain ⟨hrest, hfirst'⟩ := pairwise_cons.mp hfirst
    have htail := ih (fun b hb => hor b (.tail _ hb)) (fun b hb => hnot b (.tail _ hb)) hfirst'
    have ha := hor a (.head _)
    cases hq : q a with
    | true =>
      -- Nothing after it passes the first test.
      have hnone : l.filter p = [] := by
        rw [filter_eq_nil_iff]
        intro b hb
        simp [hrest b hb hq]
      have hp := hnot a (.head _) hq
      rw [hnone, nil_append] at htail
      rw [filter_cons_of_neg (by simp [hp]), filter_cons_of_pos hq,
        filter_cons_of_pos (by rw [ha, hq, Bool.or_true]), hnone, nil_append, htail]
    | false =>
      have hskip : (a :: l).filter q = l.filter q := filter_cons_of_neg (by simp [hq])
      rw [hq, Bool.or_false] at ha
      cases hp : p a with
      | true => rw [hskip, filter_cons_of_pos hp, filter_cons_of_pos (ha.trans hp), cons_append, htail]
      | false =>
        rw [hskip, filter_cons_of_neg (by simp [hp]), filter_cons_of_neg (by simp [ha, hp]), htail]

end Front

section Cuts
variable {A : Type} {f : A → Nat} {cut : Nat → Nat} {l : List A}

theorem flatMap_between (hsorted : l.Pairwise fun a b => f a ≤ f b) (hmono : Monotone cut) (n : Nat) :
    ((range n).flatMap fun i => l.filter fun a => cut i ≤ f a ∧ f a < cut (i + 1)) =
      l.filter fun a => cut 0 ≤ f a ∧ f a < cut n := by
  induction n with
  | zero =>
    rw [range_zero, flatMap_nil, eq_comm, filter_eq_nil_iff]
    intro a _
    simp only [decide_eq_true_eq, not_and, not_lt]
    exact id
  | succ n ih =>
    rw [range_succ, flatMap_append, ih, flatMap_singleton]
    have hzero : cut 0 ≤ cut n := hmono (zero_le n)
    have hnext : cut n ≤ cut (n + 1) := hmono (le_succ n)
    apply filter_append_filter
    · intro a _
      rw [Bool.eq_iff_iff]
      simp only [Bool.or_eq_true, decide_eq_true_eq]
      omega
    · intro a _ hq
      simp only [decide_eq_true_eq, decide_eq_false_iff_not] at hq ⊢
      omega
    · refine hsorted.imp fun {a b} hle hq => ?_
      simp only [decide_eq_true_eq, decide_eq_false_iff_not] at hq ⊢
      omega

end Cuts

namespace Buckets

variable {b buckets : Nat} {state : List Nat × Nat} {A : Type} (bucket : A → Nat) (wrap : Nat → Nat)

def below (entries : List A) (b : Nat) : Nat := entries.countP fun a => bucket a < b

/-- One entry: fill the table up to its bucket with the number of entries so far. -/
def pushOffset (state : List Nat × Nat) (a : A) : List Nat × Nat :=
  (state.1 ++ replicate (bucket a + 1 - state.1.length) (wrap state.2), state.2 + 1)

def resize (offsets : List Nat) (size value : Nat) : List Nat :=
  offsets.take size ++ replicate (size - offsets.length) value

def offsets (buckets : Nat) (entries : List A) : List Nat :=
  let state := entries.foldl (pushOffset bucket wrap) ([0], 0)
  resize state.1 (buckets + 1) (wrap state.2)

def Ordered (entries : List A) : Prop := entries.Pairwise fun a b => bucket a ≤ bucket b

variable {bucket wrap} {entries done : List A}

theorem below_append (entries entries' : List A) (b : Nat) :
    below bucket (entries ++ entries') b = below bucket entries b + below bucket entries' b :=
  countP_append

theorem below_eq_length (h : ∀ a ∈ entries, bucket a < b) : below bucket entries b = entries.length :=
  countP_eq_length.mpr fun a ha => decide_eq_true (h a ha)

theorem below_eq_zero (h : ∀ a ∈ entries, b ≤ bucket a) : below bucket entries b = 0 :=
  countP_eq_zero.mpr fun a ha => by simpa using h a ha

/-- The part of the table that the entries so far determine. -/
structure Pushed (bucket : A → Nat) (wrap : Nat → Nat) (done : List A) (state : List Nat × Nat) : Prop where
  pos : 0 < state.1.length
  count : state.2 = done.length
  lt : ∀ a ∈ done, bucket a < state.1.length
  table : state.1 = (range state.1.length).map fun b => wrap (below bucket done b)

theorem range_extend {size extra : Nat} (h : ∀ a ∈ done, bucket a < size) :
    ((range size).map fun b => wrap (below bucket done b)) ++ replicate extra (wrap done.length) =
      (range (size + extra)).map fun b => wrap (below bucket done b) := by
  rw [range_add, map_append, map_map]
  congr 1
  apply ext_getElem
  · simp
  · intro i hi _
    rw [getElem_replicate, getElem_map, getElem_range]
    show wrap done.length = wrap (below bucket done (size + i))
    rw [below_eq_length fun a ha => (h a ha).trans_le (Nat.le_add_right ..)]

theorem Pushed.push (h : Pushed bucket wrap done state) {a : A} (hordered : state.1.length ≤ bucket a + 1) :
    Pushed bucket wrap (done ++ [a]) (pushOffset bucket wrap state a) := by
  have hlength : (pushOffset bucket wrap state a).1.length = bucket a + 1 := by
    simp only [pushOffset, length_append, length_replicate]
    omega
  refine ⟨by omega, ?_, ?_, ?_⟩
  · rw [length_append, ← h.count]
    rfl
  · intro b hb
    rw [hlength]
    rcases mem_append.mp hb with hdone | hlast
    · exact (h.lt b hdone).trans_le hordered
    · rw [mem_singleton.mp hlast]
      exact Nat.lt_succ_self _
  · rw [hlength]
    calc (pushOffset bucket wrap state a).1
        = ((range state.1.length).map fun b => wrap (below bucket done b)) ++
            replicate (bucket a + 1 - state.1.length) (wrap done.length) := by
          rw [← h.table, ← h.count]
          rfl
      _ = (range (bucket a + 1)).map fun b => wrap (below bucket done b) := by
          rw [range_extend h.lt, Nat.add_sub_cancel' hordered]
      _ = (range (bucket a + 1)).map fun b => wrap (below bucket (done ++ [a]) b) := by
          apply map_congr_left
          intro b hb
          have hle : b ≤ bucket a := Nat.le_of_lt_succ (mem_range.mp hb)
          have hlast : below bucket [a] b = 0 := below_eq_zero fun c hc => by rwa [mem_singleton.mp hc]
          rw [below_append, hlast, Nat.add_zero]

theorem pushed_foldl {rest : List A} (h : Pushed bucket wrap done state)
    (hlast : ∀ a ∈ rest, state.1.length ≤ bucket a + 1) (hordered : Ordered bucket rest) :
    Pushed bucket wrap (done ++ rest) (rest.foldl (pushOffset bucket wrap) state) := by
  induction rest generalizing done state with
  | nil => rwa [append_nil]
  | cons a _ ih =>
    obtain ⟨hfirst, hrest⟩ := pairwise_cons.mp hordered
    have ha := hlast a (.head _)
    have hpush := h.push ha
    rw [append_cons]
    refine ih hpush ?_ hrest
    intro b hb
    have hab := hfirst b hb
    simp only [pushOffset, length_append, length_replicate]
    omega

/-- **The table.** An offset is the number of entries in the buckets below. -/
theorem offsets_eq (hwrap : wrap 0 = 0) (hordered : Ordered bucket entries) :
    offsets bucket wrap buckets entries = (range (buckets + 1)).map fun b => wrap (below bucket entries b) := by
  have hinit : Pushed bucket wrap ([] : List A) ([0], 0) := ⟨one_pos, rfl, nofun, by simp [below, hwrap]⟩
  have hpushed : Pushed bucket wrap ([] ++ entries) (entries.foldl (pushOffset bucket wrap) ([0], 0)) :=
    pushed_foldl hinit (fun a _ => le_add_left 1 _) hordered
  rw [nil_append] at hpushed
  obtain ⟨-, hcount, hlast, htable⟩ := hpushed
  simp only [offsets, resize, hcount]
  generalize (entries.foldl (pushOffset bucket wrap) ([0], 0)).1 = table at hlast htable ⊢
  rcases le_total table.length (buckets + 1) with hle | hge
  · rw [take_of_length_le hle, htable, length_map, length_range, range_extend hlast, Nat.add_sub_cancel' hle]
  · rw [Nat.sub_eq_zero_of_le hge, replicate_zero, append_nil, htable, ← map_take, take_range, min_eq_left hge]

theorem below_mono (entries : List A) {b' : Nat} (h : b ≤ b') : below bucket entries b ≤ below bucket entries b' :=
  countP_mono_left fun _ _ ha => decide_eq_true ((of_decide_eq_true ha).trans_le h)

/-- The entries between an offset and the next. -/
def slice (bucket : A → Nat) (entries : List A) (b : Nat) : List A :=
  (entries.drop (below bucket entries b)).take (below bucket entries (b + 1) - below bucket entries b)

theorem flatMap_slice (hlt : ∀ a ∈ entries, bucket a < buckets) :
    (range buckets).flatMap (slice bucket entries) = entries := by
  have hupto : ∀ n, (range n).flatMap (slice bucket entries) = entries.take (below bucket entries n) := by
    intro n
    induction n with
    | zero => rw [below_eq_zero fun a _ => zero_le _]; rfl
    | succ n ih =>
      have hmono : below bucket entries n ≤ below bucket entries (n + 1) := below_mono entries (le_succ n)
      rw [range_succ, flatMap_append, ih, flatMap_singleton, slice, ← take_add, Nat.add_sub_cancel' hmono]
  rw [hupto, below_eq_length hlt, take_length]

/-- **The entries of a bucket** are those between its offset and the next. -/
theorem slice_eq_filter (hordered : Ordered bucket entries) (b : Nat) :
    slice bucket entries b = entries.filter fun a => bucket a = b := by
  unfold slice
  induction entries with
  | nil => rfl
  | cons a entries ih =>
    obtain ⟨hfirst, hrest⟩ := pairwise_cons.mp hordered
    have hslice := ih hrest
    rcases lt_trichotomy (bucket a) b with hlt | heq | hgt
    · have hb : below bucket (a :: entries) b = below bucket entries b + 1 :=
        countP_cons_of_pos (decide_eq_true hlt)
      have hb' : below bucket (a :: entries) (b + 1) = below bucket entries (b + 1) + 1 :=
        countP_cons_of_pos (decide_eq_true (hlt.trans (lt_succ_self b)))
      rw [hb, hb', drop_succ_cons, Nat.add_sub_add_right, hslice, filter_cons_of_neg (by simpa using hlt.ne)]
    · have hzero : below bucket entries b = 0 := below_eq_zero fun c hc => heq ▸ hfirst c hc
      have hb : below bucket (a :: entries) b = 0 := below_eq_zero fun c hc => by
          rcases mem_cons.mp hc with rfl | hmem
          · exact heq.ge
          · exact heq ▸ hfirst c hmem
      have hb' : below bucket (a :: entries) (b + 1) = below bucket entries (b + 1) + 1 :=
        countP_cons_of_pos (decide_eq_true (heq ▸ lt_succ_self _))
      rw [hzero, drop_zero, Nat.sub_zero] at hslice
      rw [hb, hb', drop_zero, Nat.sub_zero, take_succ_cons, hslice, filter_cons_of_pos (by simpa using heq)]
    · have habove : ∀ c ∈ a :: entries, b + 1 ≤ bucket c := by
        intro c hc
        rcases mem_cons.mp hc with rfl | hmem
        · exact hgt
        · exact le_trans hgt (hfirst c hmem)
      have hnone : (a :: entries).filter (fun c => bucket c = b) = [] := by
        apply filter_eq_nil_iff.mpr
        intro c hc
        have := habove c hc
        simp only [decide_eq_true_eq]
        omega
      rw [below_eq_zero habove, Nat.zero_sub, take_zero, hnone]

end Buckets
end LeafageEvm
