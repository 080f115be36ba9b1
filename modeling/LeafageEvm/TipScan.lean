import LeafageEvm.Buckets
import LeafageEvm.OrderedMap

/-! Scans for one entry of each group of an ordered map, where the entries of a group lie next to each
other. A scan that wants the first entry of a group remembers the group, or leaves it by seeking past it;
one that wants the last looks at the entry ahead. -/

namespace LeafageEvm
open Option List
variable {K V P : Type} [LinearOrder P]

/-- The first entry of each group, after the group `seen`. -/
def firstOfEach (group : K → P) : Option P → List (K × V) → List (K × V)
  | _, [] => []
  | seen, entry :: rest =>
    if seen = some (group entry.1) then firstOfEach group (some (group entry.1)) rest
    else entry :: firstOfEach group (some (group entry.1)) rest

/-- The last entry of each group that is not skipped. An entry is taken for the last if the one ahead is in
another group or is skipped. -/
def lastOfEach (group : K → P) (skip : K → Bool) : List (K × V) → List (K × V)
  | [] => []
  | entry :: rest =>
    if skip entry.1 ∨ ¬ rest.head?.all fun next => group next.1 ≠ group entry.1 ∨ skip next.1 then lastOfEach group skip rest
    else entry :: lastOfEach group skip rest

/-- Where a scan is after walking what it may of the rest of a group: at the end, at an entry of another
group, or still in the group. -/
inductive TailWalk (A : Type) where
  | done
  | pending (rest : List A)
  | seek

def walkTail (group : K → P) (of : P) : Nat → List (K × V) → TailWalk (K × V)
  | _, [] => .done
  | left, next :: rest =>
    if group next.1 ≠ of then .pending (next :: rest)
    else if left ≤ 1 then .seek
    else walkTail group of (left - 1) rest

section Seeks
variable [LinearOrder K]

/-- The first entry of each group: walk the rest of the group, and seek past it if it is long. `after` is
the key to seek to, if there is one after the group. -/
def tipOfEach (group : K → P) (after : P → Option K) (maxWalk : Nat) (table : List (K × V)) :
    Nat → List (K × V) → List (K × V)
  | fuel + 1, entry :: rest =>
    entry :: match walkTail group (group entry.1) maxWalk rest with
      | .done => []
      | .pending rest => tipOfEach group after maxWalk table fuel rest
      | .seek =>
        match after (group entry.1) with
        | some key => tipOfEach group after maxWalk table fuel (table.dropWhile fun other => other.1 < key)
        | none => []
  | _, _ => []

end Seeks

/-! ### What they find -/

theorem firstOfEach_sublist (group : K → P) (seen : Option P) (entries : List (K × V)) :
    (firstOfEach group seen entries).Sublist entries := by
  induction entries generalizing seen with
  | nil => exact List.Sublist.refl _
  | cons _ _ ih =>
    rw [firstOfEach]
    split
    · exact (ih _).cons _
    · exact (ih _).cons_cons _

theorem lastOfEach_sublist (group : K → P) (skip : K → Bool) (entries : List (K × V)) :
    (lastOfEach group skip entries).Sublist entries := by
  induction entries with
  | nil => exact List.Sublist.refl _
  | cons _ _ ih =>
    rw [lastOfEach]
    split
    · exact ih.cons _
    · exact ih.cons_cons _

variable [LinearOrder K] {group : K → P} {entries : List (K × V)} {entry : K × V}

def Grouped (group : K → P) (entries : List (K × V)) : Prop :=
  entries.Pairwise fun a b => a.1 < b.1 ∧ group a.1 ≤ group b.1

/-- Looking one entry ahead tells whether the group goes on. -/
theorem all_head_iff {first : K × V} {rest : List (K × V)} (h : Grouped group (first :: rest)) {skip : K → Bool}
    (hskip : ∀ a ∈ rest, skip a.1 = true → ∀ b ∈ rest, group b.1 = group a.1 → b.1 ≤ a.1) :
    (rest.head?.all fun next => group next.1 ≠ group first.1 ∨ skip next.1) = true ↔
      ∀ a ∈ rest, group a.1 = group first.1 → skip a.1 = true := by
  cases rest with
  | nil => simp
  | cons next =>
    obtain ⟨hfirst, hrest⟩ := pairwise_cons.mp h
    obtain ⟨hnext, -⟩ := pairwise_cons.mp hrest
    rw [head?_cons, all_some, decide_eq_true_eq, forall_mem_cons]
    constructor
    · rintro (hne | hskipped)
      · refine ⟨fun heq => absurd heq hne, fun a ha heq => absurd (le_antisymm ?_ (hfirst next (.head _)).2) hne⟩
        exact heq ▸ (hnext a ha).2
      · refine ⟨fun _ => hskipped, fun a ha heq => ?_⟩
        by_cases hsame : group next.1 = group first.1
        · have hle := hskip next (.head _) hskipped a (.tail _ ha) (heq.trans hsame.symm)
          exact absurd (hnext a ha).1 hle.not_gt
        · exact absurd (le_antisymm (heq ▸ (hnext a ha).2) (hfirst _ (.head _)).2) hsame
    · rintro ⟨hskipped, -⟩
      by_cases hsame : group next.1 = group first.1
      · exact .inr (hskipped hsame)
      · exact .inl hsame

/-- What is left after a group. -/
def pastGroup (group : K → P) (p : P) (entries : List (K × V)) : List (K × V) := entries.filter fun entry => p < group entry.1

theorem pastGroup_of_ne {p : P} {next : K × V} {rest : List (K × V)} (h : Grouped group (next :: rest)) (hlt : p < group next.1) :
    pastGroup group p (next :: rest) = next :: rest := by
  rw [pastGroup, filter_eq_self]
  intro a ha
  rcases mem_cons.mp ha with rfl | hin
  · exact decide_eq_true hlt
  · exact decide_eq_true (hlt.trans_le ((pairwise_cons.mp h).1 a hin).2)

section
variable (h : Grouped group entries)
include h
/-- The first entries are the smallest of their groups. -/
theorem mem_firstOfEach {seen : Option P} (hseen : ∀ p, seen = some p → ∀ a ∈ entries, p ≤ group a.1) :
    entry ∈ firstOfEach group seen entries ↔
      entry ∈ entries ∧ seen ≠ some (group entry.1) ∧ ∀ a ∈ entries, group a.1 = group entry.1 → entry.1 ≤ a.1 := by
  induction entries generalizing seen with
  | nil => simp [firstOfEach]
  | cons first rest ih =>
    obtain ⟨hfirst, hrest⟩ := pairwise_cons.mp h
    have hlater := @ih hrest (some (group first.1)) (by
      rintro p ⟨⟩ a ha
      exact (hfirst a ha).2)
    -- An entry further on is the first of its group if its group is another.
    have hother : entry ∈ firstOfEach group (some (group first.1)) rest ↔ entry ∈ rest ∧ group first.1 ≠ group entry.1 ∧
        ∀ a ∈ first :: rest, group a.1 = group entry.1 → entry.1 ≤ a.1 := by
      rw [hlater, forall_mem_cons, Ne, some.injEq]
      exact and_congr_right fun _ => and_congr_right fun hne => (and_iff_right fun heq => absurd heq hne).symm
    have hmem : entry ∈ rest → group first.1 = group entry.1 → ¬ ∀ a ∈ first :: rest, group a.1 = group entry.1 → entry.1 ≤ a.1 :=
      fun hin heq hall => (hfirst entry hin).1.not_ge (hall first (.head _) heq)
    rw [firstOfEach]
    split
    · next hsame =>
      rw [hother, mem_cons]
      constructor
      · rintro ⟨hin, hne, hall⟩
        refine ⟨.inr hin, ?_, hall⟩
        rw [hsame, Ne, some.injEq]
        exact hne
      · rintro ⟨rfl | hin, hne, hall⟩
        · exact absurd hsame hne
        · rw [hsame, Ne, some.injEq] at hne
          exact ⟨hin, hne, hall⟩
    · next hnew =>
      rw [mem_cons, hother, mem_cons]
      constructor
      · rintro (rfl | ⟨hin, hne, hall⟩)
        · refine ⟨.inl rfl, hnew, ?_⟩
          intro a ha _
          rcases mem_cons.mp ha with rfl | hin
          · exact le_refl _
          · exact (hfirst a hin).1.le
        · refine ⟨.inr hin, fun hseen' => hne ?_, hall⟩
          have hle := hseen _ hseen' first (.head _)
          exact le_antisymm (hfirst entry hin).2 hle
      · rintro ⟨rfl | hin, -, hall⟩
        · exact .inl rfl
        · exact .inr ⟨hin, fun heq => hmem hin heq hall, hall⟩

/-- The last entries are the greatest of their groups, skipped ones apart. A skipped entry has to be the
last of its group. -/
theorem mem_lastOfEach {skip : K → Bool}
    (hskip : ∀ a ∈ entries, skip a.1 = true → ∀ b ∈ entries, group b.1 = group a.1 → b.1 ≤ a.1) :
    entry ∈ lastOfEach group skip entries ↔ entry ∈ entries ∧ skip entry.1 = false ∧
      ∀ a ∈ entries, group a.1 = group entry.1 → skip a.1 = false → a.1 ≤ entry.1 := by
  induction entries with
  | nil => simp [lastOfEach]
  | cons first rest ih =>
    obtain ⟨hfirst, hrest⟩ := pairwise_cons.mp h
    have hskip' : ∀ a ∈ rest, skip a.1 = true → ∀ b ∈ rest, group b.1 = group a.1 → b.1 ≤ a.1 :=
      fun a ha hs b hb => hskip a (.tail _ ha) hs b (.tail _ hb)
    have hahead := all_head_iff h hskip'
    -- The first entry does not stand in the way of a later one.
    have hlater : entry ∈ lastOfEach group skip rest ↔ entry ∈ rest ∧ skip entry.1 = false ∧
        ∀ a ∈ first :: rest, group a.1 = group entry.1 → skip a.1 = false → a.1 ≤ entry.1 := by
      rw [ih hrest hskip', forall_mem_cons]
      exact and_congr_right fun hin => and_congr_right fun _ => (and_iff_right fun _ _ => (hfirst entry hin).1.le).symm
    have hself : (skip first.1 = true ∨ ¬ (rest.head?.all fun next => group next.1 ≠ group first.1 ∨ skip next.1) = true) ↔
        ¬ (skip first.1 = false ∧ ∀ a ∈ first :: rest, group a.1 = group first.1 → skip a.1 = false → a.1 ≤ first.1) := by
      rw [not_and_or, Bool.not_eq_false, hahead, forall_mem_cons, and_iff_right fun _ _ => le_refl _]
      refine or_congr_right (not_congr (forall₂_congr fun a ha => forall_congr' fun _ => ?_))
      constructor
      · intro hs hno
        rw [hs] at hno
        cases hno
      · intro hle
        by_contra hno
        exact (hfirst a ha).1.not_ge (hle (Bool.not_eq_true _ ▸ hno))
    rw [lastOfEach]
    split
    · next hpass =>
      have hnot := hself.mp hpass
      rw [hlater, mem_cons]
      constructor
      · exact fun ⟨hin, hrest⟩ => ⟨.inr hin, hrest⟩
      · rintro ⟨rfl | hin, hgreatest⟩
        · exact absurd hgreatest hnot
        · exact ⟨hin, hgreatest⟩
    · next htake =>
      have hgreatest := not_not.mp (mt hself.mpr htake)
      rw [mem_cons, hlater, mem_cons]
      constructor
      · rintro (rfl | ⟨hin, hrest⟩)
        · exact ⟨.inl rfl, hgreatest⟩
        · exact ⟨.inr hin, hrest⟩
      · rintro ⟨rfl | hin, hrest⟩
        · exact .inl rfl
        · exact .inr ⟨hin, hrest⟩

/-! ### Seeking past a group -/

/-- Remembering the group is to leave out the rest of it. -/
theorem firstOfEach_pastGroup {p : P} (hle : ∀ a ∈ entries, p ≤ group a.1) :
    firstOfEach group (some p) entries = firstOfEach group none (pastGroup group p entries) := by
  induction entries with
  | nil => rfl
  | cons next _ ih =>
    rcases (hle next (.head _)).eq_or_lt with heq | hlt
    · rw [firstOfEach, if_pos (congrArg some heq), ← heq, ih (pairwise_cons.mp h).2 fun a ha => hle a (.tail _ ha),
        pastGroup, pastGroup, filter_cons_of_neg (by simp [heq])]
    · rw [pastGroup_of_ne h hlt, firstOfEach, firstOfEach, if_neg fun heq => hlt.ne (some.inj heq), if_neg (by simp)]
end

theorem walkTail_spec {p : P} {left : Nat} {rest : List (K × V)} (h : Grouped group rest) (hle : ∀ a ∈ rest, p ≤ group a.1) :
    (walkTail group p left rest = .done → pastGroup group p rest = []) ∧
      ∀ others, walkTail group p left rest = .pending others → pastGroup group p rest = others := by
  induction rest generalizing left with
  | nil =>
    refine ⟨fun _ => rfl, fun others heq => ?_⟩
    cases heq
  | cons next rest ih =>
    rw [walkTail]
    rcases (hle next (.head _)).eq_or_lt with heq | hlt
    · have hpast : pastGroup group p (next :: rest) = pastGroup group p rest := by
        rw [pastGroup, pastGroup, filter_cons_of_neg (by simp [heq])]
      rw [if_neg (not_not.mpr heq.symm), hpast]
      split
      · exact ⟨fun hdone => (by cases hdone), fun _ hpending => (by cases hpending)⟩
      · exact ih (pairwise_cons.mp h).2 fun a ha => hle a (.tail _ ha)
    rw [if_pos hlt.ne']
    refine ⟨fun hdone => (by cases hdone), fun others hpending => ?_⟩
    cases hpending
    exact pastGroup_of_ne h hlt

/-- **Seeking past the groups** finds what remembering them finds. -/
theorem tipOfEach_eq {after : P → Option K} (maxWalk : Nat) {table : List (K × V)} (htable : Grouped group table)
    (hafter : ∀ a ∈ table, ∀ b ∈ table, ∀ key, after (group a.1) = some key → (b.1 < key ↔ group b.1 ≤ group a.1))
    (hlast : ∀ a ∈ table, after (group a.1) = none → ∀ b ∈ table, group b.1 ≤ group a.1)
    {fuel : Nat} {rows : List (K × V)} (hrows : rows <:+ table) (hfuel : rows.length ≤ fuel) :
    tipOfEach group after maxWalk table fuel rows = firstOfEach group none rows := by
  induction fuel generalizing rows with
  | zero =>
    rw [length_eq_zero_iff.mp (Nat.le_zero.mp hfuel)]
    rfl
  | succ fuel ih =>
    cases rows with
    | nil => rfl
    | cons entry rest =>
      have hgrouped : Grouped group (entry :: rest) := htable.sublist hrows.sublist
      obtain ⟨hfirst, hrest⟩ := pairwise_cons.mp hgrouped
      have hle : ∀ a ∈ rest, group entry.1 ≤ group a.1 := fun a ha => (hfirst a ha).2
      have hmem : entry ∈ table := hrows.subset (.head _)
      have hshort : (pastGroup group (group entry.1) rest).length ≤ fuel :=
        (length_filter_le ..).trans (Nat.le_of_succ_le_succ hfuel)
      -- The rest of the table after the group is what is left of these rows.
      have hpast : pastGroup group (group entry.1) table = pastGroup group (group entry.1) rest := by
        obtain ⟨front, hfront⟩ := hrows
        have hbefore : pastGroup group (group entry.1) front = [] := by
          rw [pastGroup, filter_eq_nil_iff]
          intro a ha hlt
          have hpair := (pairwise_append.mp (hfront ▸ htable)).2.2 a ha entry (.head _)
          exact (of_decide_eq_true hlt).not_ge hpair.2
        rw [← hfront, pastGroup, filter_append, filter_cons_of_neg (by simp)]
        exact congrArg (· ++ _) hbefore
      have hsuffix : pastGroup group (group entry.1) rest <:+ table := by
        rw [← hpast, pastGroup]
        have hdrop := dropWhile_eq_filter (l := table) (p := fun a => group a.1 ≤ group entry.1)
          (htable.imp fun {a b} hab hb => decide_eq_true (hab.2.trans (of_decide_eq_true hb)))
        simp only [← decide_not, not_le] at hdrop
        rw [← hdrop]
        exact dropWhile_suffix _
      have hnext := ih hsuffix hshort
      rw [firstOfEach, firstOfEach_pastGroup hrest hle, ← hnext]
      refine congrArg (entry :: ·) ?_
      obtain ⟨hdone, hpending⟩ := @walkTail_spec _ _ _ _ _ group (group entry.1) maxWalk rest hrest hle
      cases hwalk : walkTail group (group entry.1) maxWalk rest with
      | done => rw [hnext, hdone hwalk]; rfl
      | pending others => rw [hpending others hwalk]
      | seek =>
        cases hkey : after (group entry.1) with
        | none =>
          have hnil : pastGroup group (group entry.1) rest = [] := by
            rw [pastGroup, filter_eq_nil_iff]
            intro a ha hlt
            have hle := hlast entry hmem hkey a (hrows.subset (.tail _ ha))
            exact (of_decide_eq_true hlt).not_ge hle
          rw [hnext, hnil]
          rfl
        | some key =>
          have hseek : (table.dropWhile fun other => other.1 < key) = pastGroup group (group entry.1) rest := by
            rw [dropWhile_eq_filter (htable.imp fun {a b} hab hb => decide_eq_true (hab.1.trans (of_decide_eq_true hb))),
              ← hpast, pastGroup]
            apply filter_congr
            intro a ha
            rw [← decide_not, decide_eq_decide, hafter entry hmem a ha key hkey, not_le]
          show tipOfEach group after maxWalk table fuel (table.dropWhile fun other => other.1 < key) = _
          rw [hseek]

end LeafageEvm
