import Placeholder.Delimiter
import Mathlib.Data.List.Infix
/-!
What `longestMatch` picks: of the delimiters whose opening token stands at the front of the window,
one with the longest opening token, and the first declared of those. Only the order of delimiters with
the same opening token matters. Which one it is shows in any window that is long enough for every
opening token, and in the token alone.
-/
namespace Placeholder

theorem Delimiter.opening_pos (d : Delimiter) : 0 < d.opening.length :=
  List.length_pos_iff.mpr d.opening_ne_nil

namespace DelimiterSet

/-- Among `members`, `d` is the first that opens the window with a longest opening token. -/
def LongestAt (window : Text) (members : List Delimiter) (d : Delimiter) : Prop :=
  ∃ earlier later, members = earlier ++ d :: later ∧ d.opening <+: window ∧
    (∀ other ∈ earlier, other.opening <+: window → other.opening.length < d.opening.length) ∧
    ∀ other ∈ later, other.opening <+: window → other.opening.length ≤ d.opening.length

theorem LongestAt.length_le {window : Text} {members : List Delimiter} {d other : Delimiter}
    (h : LongestAt window members d) (hMem : other ∈ members) (hOpens : other.opening <+: window) :
    other.opening.length ≤ d.opening.length := by
  obtain ⟨earlier, later, rfl, _, hEarlier, hLater⟩ := h
  rcases List.mem_append.mp hMem with hIn | hIn
  · exact Nat.le_of_lt (hEarlier other hIn hOpens)
  · rcases List.mem_cons.mp hIn with rfl | hIn
    · exact Nat.le_refl _
    · exact hLater other hIn hOpens

theorem LongestAt.unique {window : Text} {members : List Delimiter} {d e : Delimiter}
    (hd : LongestAt window members d) (he : LongestAt window members e) : d = e := by
  have hLength : d.opening.length = e.opening.length := by
    obtain ⟨_, _, hSplit, hOpens, _⟩ := id hd
    obtain ⟨_, _, hSplit', hOpens', _⟩ := id he
    exact Nat.le_antisymm (he.length_le (by simp [hSplit]) hOpens)
      (hd.length_le (by simp [hSplit']) hOpens')
  obtain ⟨earlier, later, rfl, hOpens, hEarlier, _⟩ := hd
  obtain ⟨earlier', later', hSplit, hOpens', hEarlier', _⟩ := he
  -- If one stood before the other it would be strictly shorter.
  rcases List.append_eq_append_iff.mp hSplit with ⟨between, rfl, hRest⟩ | ⟨between, rfl, hRest⟩
  · cases between with
    | nil => exact (List.cons.inj hRest).1
    | cons first between =>
        obtain rfl : d = first := (List.cons.inj hRest).1
        exact absurd (hEarlier' d (by simp) hOpens) (by omega)
  · cases between with
    | nil => exact (List.cons.inj hRest).1.symm
    | cons first between =>
        obtain rfl : e = first := (List.cons.inj hRest).1
        exact absurd (hEarlier e (by simp) hOpens') (by omega)

/-- Adding one more member at the end: it wins only if it opens the window with more characters. -/
theorem LongestAt.append_singleton {window : Text} {members : List Delimiter} {d e : Delimiter}
    (h : LongestAt window members d)
    (hLast : e.opening <+: window → e.opening.length ≤ d.opening.length) :
    LongestAt window (members ++ [e]) d := by
  obtain ⟨earlier, later, rfl, hOpens, hEarlier, hLater⟩ := h
  refine ⟨earlier, later ++ [e], by simp, hOpens, hEarlier, fun other hMem hOther => ?_⟩
  rcases List.mem_append.mp hMem with hIn | hIn
  · exact hLater other hIn hOther
  · obtain rfl := List.mem_singleton.mp hIn
    exact hLast hOther

/-- The fold keeps the best of the members it has seen. -/
theorem foldl_better_spec (window : Text) (members : List Delimiter) :
    (members.foldl (better window) none = none ∧ ∀ d ∈ members, ¬ d.opening <+: window) ∨
      ∃ d, members.foldl (better window) none = some d ∧ LongestAt window members d := by
  induction members using List.reverseRecOn with
  | nil => exact Or.inl ⟨rfl, by simp⟩
  | append_singleton members e ih =>
      rw [List.foldl_append, List.foldl_cons, List.foldl_nil]
      by_cases hOpens : e.opening <+: window
      · rcases ih with ⟨hNone, hAll⟩ | ⟨d, hSome, hLongest⟩
        · refine Or.inr ⟨e, ?_, members, [], rfl, hOpens, ?_, by simp⟩
          · rw [hNone, better, if_pos (List.isPrefixOf_iff_prefix.mpr hOpens)]
          · exact fun other hMem hOther => absurd hOther (hAll other hMem)
        · by_cases hLonger : d.opening.length < e.opening.length
          · refine Or.inr ⟨e, ?_, members, [], rfl, hOpens, ?_, by simp⟩
            · simp [hSome, better, List.isPrefixOf_iff_prefix.mpr hOpens, hLonger]
            · intro other hMem hOther
              exact Nat.lt_of_le_of_lt (hLongest.length_le hMem hOther) hLonger
          · refine Or.inr ⟨d, ?_, hLongest.append_singleton fun _ => by omega⟩
            simp [hSome, better, hLonger]
      · have hKeep : better window (members.foldl (better window) none) e =
            members.foldl (better window) none := by
          simp [better, hOpens]
        rw [hKeep]
        rcases ih with ⟨hNone, hAll⟩ | ⟨d, hSome, hLongest⟩
        · refine Or.inl ⟨hNone, fun d hMem => ?_⟩
          rcases List.mem_append.mp hMem with hIn | hIn
          · exact hAll d hIn
          · obtain rfl := List.mem_singleton.mp hIn
            exact hOpens
        · exact Or.inr ⟨d, hSome, hLongest.append_singleton fun h => absurd h hOpens⟩

theorem longestMatch_eq_none_iff {set : DelimiterSet} {window : Text} :
    set.longestMatch window = none ↔ ∀ d ∈ set.members, ¬ d.opening <+: window := by
  rcases foldl_better_spec window set.members with ⟨hNone, hAll⟩ | ⟨d, hSome, hLongest⟩
  · simpa [longestMatch, hNone] using hAll
  · obtain ⟨earlier, later, hSplit, hOpens, _⟩ := hLongest
    simp only [longestMatch, hSome, reduceCtorEq, false_iff]
    exact fun hAll => hAll d (by simp [hSplit]) hOpens

theorem longestMatch_eq_some_iff {set : DelimiterSet} {window : Text} {d : Delimiter} :
    set.longestMatch window = some d ↔ LongestAt window set.members d := by
  rcases foldl_better_spec window set.members with ⟨hNone, hAll⟩ | ⟨e, hSome, hLongest⟩
  · simp only [longestMatch, hNone, reduceCtorEq, false_iff]
    rintro ⟨earlier, later, hSplit, hOpens, _⟩
    exact hAll d (by simp [hSplit]) hOpens
  · simp only [longestMatch, hSome, Option.some.injEq]
    exact ⟨fun h => h ▸ hLongest, hLongest.unique⟩

theorem mem_of_longestMatch {set : DelimiterSet} {window : Text} {d : Delimiter}
    (h : set.longestMatch window = some d) : d ∈ set.members := by
  obtain ⟨_, _, hSplit, _⟩ := longestMatch_eq_some_iff.mp h
  simp [hSplit]

theorem opening_prefix_of_longestMatch {set : DelimiterSet} {window : Text} {d : Delimiter}
    (h : set.longestMatch window = some d) : d.opening <+: window := by
  obtain ⟨_, _, _, hOpens, _⟩ := longestMatch_eq_some_iff.mp h
  exact hOpens

/-- The opening token of `d` stands at the front of the window, and no longer one of the set does. -/
def IsLongest (set : DelimiterSet) (window : Text) (d : Delimiter) : Prop :=
  d.opening <+: window ∧
    ∀ other ∈ set.members, other.opening <+: window → other.opening.length ≤ d.opening.length

instance (set : DelimiterSet) (window : Text) : DecidablePred (set.IsLongest window) :=
  fun _ => inferInstanceAs (Decidable (_ ∧ _))

/-- Longest opening tokens at the front of one window are the same token. -/
theorem IsLongest.iff_opening_eq {set : DelimiterSet} {window : Text} {d other : Delimiter}
    (h : set.IsLongest window d) (hMem : d ∈ set.members) (hOther : other ∈ set.members) :
    set.IsLongest window other ↔ other.opening = d.opening := by
  constructor
  · intro hLongest
    have hLength := Nat.le_antisymm (h.2 other hOther hLongest.1) (hLongest.2 d hMem h.1)
    exact (List.prefix_of_prefix_length_le hLongest.1 h.1 hLength.le).eq_of_length hLength
  · intro hSame
    rwa [IsLongest, hSame]

theorem isLongest_of_longestMatch {set : DelimiterSet} {window : Text} {d : Delimiter}
    (h : set.longestMatch window = some d) : set.IsLongest window d :=
  ⟨opening_prefix_of_longestMatch h, fun _ => (longestMatch_eq_some_iff.mp h).length_le⟩

/-- Of the members with a longest opening token, the first declared is chosen. -/
theorem longestMatch_eq_find? (set : DelimiterSet) (window : Text) :
    set.longestMatch window = set.members.find? fun d => decide (set.IsLongest window d) := by
  cases hMatch : set.longestMatch window with
  | none =>
      have hNone := longestMatch_eq_none_iff.mp hMatch
      refine (List.find?_eq_none.mpr fun d hMem hLongest => ?_).symm
      exact hNone d hMem (of_decide_eq_true hLongest).1
  | some d =>
      obtain ⟨earlier, later, hSplit, hOpens, hEarlier, _⟩ := longestMatch_eq_some_iff.mp hMatch
      refine (List.find?_eq_some_iff_append.mpr ⟨?_, earlier, later, hSplit, ?_⟩).symm
      · exact decide_eq_true (isLongest_of_longestMatch hMatch)
      · intro other hMem
        rw [Bool.not_eq_true', decide_eq_false_iff_not]
        intro hOther
        have hShorter := hEarlier other hMem hOther.1
        exact absurd (hOther.2 d (by simp [hSplit]) hOpens) (Nat.not_le.mpr hShorter)

/-- The members with a longest opening token are those with this token. -/
theorem IsLongest.filter_eq {set : DelimiterSet} {window : Text} {d : Delimiter}
    (h : set.IsLongest window d) (hMem : d ∈ set.members) :
    set.members.filter (set.IsLongest window ·) = set.members.filter (·.opening = d.opening) :=
  List.filter_congr fun _ hOther => decide_eq_decide.mpr (h.iff_opening_eq hMem hOther)

/-- The same delimiters in another order; those with the same opening token stand as they did. -/
structure Rearranged (set other : DelimiterSet) : Prop where
  perm : set.members.Perm other.members
  sameOpening : ∀ opening, set.members.filter (·.opening = opening) =
    other.members.filter (·.opening = opening)

theorem Rearranged.longestMatch_eq {set other : DelimiterSet} (h : set.Rearranged other)
    (window : Text) : other.longestMatch window = set.longestMatch window := by
  cases hMatch : set.longestMatch window with
  | none =>
      refine longestMatch_eq_none_iff.mpr fun d hMem => ?_
      exact longestMatch_eq_none_iff.mp hMatch d (h.perm.mem_iff.mpr hMem)
  | some d =>
      have hMem := mem_of_longestMatch hMatch
      have hLongest := isLongest_of_longestMatch hMatch
      have hOther : other.IsLongest window d :=
        ⟨hLongest.1, fun e hE => hLongest.2 e (h.perm.mem_iff.mpr hE)⟩
      calc other.longestMatch window
          = (other.members.filter (other.IsLongest window ·)).head? := by
            rw [longestMatch_eq_find?, List.head?_filter]
        _ = (other.members.filter (·.opening = d.opening)).head? := by
            rw [hOther.filter_eq (h.perm.mem_iff.mp hMem)]
        _ = (set.members.filter (set.IsLongest window ·)).head? := by
            rw [← h.sameOpening, hLongest.filter_eq hMem]
        _ = some d := by rw [List.head?_filter, ← longestMatch_eq_find?, hMatch]

/-- The same opening tokens at the front, the same delimiter. -/
theorem longestMatch_congr {set : DelimiterSet} {first second : Text}
    (h : ∀ d ∈ set.members, d.opening <+: first ↔ d.opening <+: second) :
    set.longestMatch first = set.longestMatch second := by
  have hBetter : ∀ best, ∀ d ∈ set.members, better first best d = better second best d := by
    intro best d hMem
    have hSame : d.opening.isPrefixOf first = d.opening.isPrefixOf second := by
      rw [Bool.eq_iff_iff, List.isPrefixOf_iff_prefix, List.isPrefixOf_iff_prefix]
      exact h d hMem
    simp only [better, hSame]
  exact List.foldl_ext _ _ _ fun best d hMem => hBetter best d hMem

theorem le_foldl_max {lengths : List Nat} (start : Nat) :
    start ≤ lengths.foldl max start ∧ ∀ n ∈ lengths, n ≤ lengths.foldl max start := by
  induction lengths generalizing start with
  | nil => simp
  | cons n rest ih =>
      have hRest := ih (max start n)
      simp only [List.foldl_cons, List.mem_cons, forall_eq_or_imp]
      exact ⟨by omega, by omega, hRest.2⟩

theorem opening_length_le {set : DelimiterSet} {d : Delimiter} (h : d ∈ set.members) :
    d.opening.length ≤ set.maxOpening :=
  (le_foldl_max 0).2 _ (List.mem_map_of_mem (f := fun d : Delimiter => d.opening.length) h)

theorem closing_length_le {set : DelimiterSet} {d : Delimiter} (h : d ∈ set.members) :
    d.closing.length ≤ set.maxClosing :=
  (le_foldl_max 0).2 _ (List.mem_map_of_mem (f := fun d : Delimiter => d.closing.length) h)

/-- Opening tokens are not empty, so without a longest one there is none. -/
theorem longestMatch_of_maxOpening {set : DelimiterSet} (h : set.maxOpening = 0) (window : Text) :
    set.longestMatch window = none := by
  refine longestMatch_eq_none_iff.mpr fun d hMem => ?_
  have hLength := opening_length_le hMem
  have hPos := d.opening_pos
  omega

/-- A window as long as the longest opening token shows which delimiter it is. -/
theorem longestMatch_take {set : DelimiterSet} {n : Nat} (h : set.maxOpening ≤ n) (text : Text) :
    set.longestMatch (text.take n) = set.longestMatch text := by
  refine longestMatch_congr fun d hMem => ?_
  rw [List.prefix_take_iff]
  have hLength := opening_length_le hMem
  exact ⟨fun h => h.1, fun hOpens => ⟨hOpens, by omega⟩⟩

/-- A window that is long enough, or that shows all there is, shows which opening token is there. -/
theorem longestMatch_window {set : DelimiterSet} {n : Nat} {text : Text}
    (h : set.maxOpening ≤ n ∨ text.length ≤ n) :
    set.longestMatch (text.take n) = set.longestMatch text := by
  rcases h with hLong | hAll
  · exact longestMatch_take hLong text
  · rw [List.take_of_length_le hAll]

/-- What comes behind a window that is wide enough makes no difference. -/
theorem longestMatch_append {set : DelimiterSet} {window : Text}
    (h : set.maxOpening ≤ window.length) (more : Text) :
    set.longestMatch (window ++ more) = set.longestMatch window := by
  rw [← longestMatch_take h (window ++ more), List.take_left]

/-- The opening token that wins in a text also wins in any beginning of the text that holds it. -/
theorem longestMatch_of_append {set : DelimiterSet} {front back : Text} {d : Delimiter}
    (h : set.longestMatch (front ++ back) = some d) (hOpens : d.opening <+: front) :
    set.longestMatch front = some d := by
  obtain ⟨earlier, later, hSplit, _, hEarlier, hLater⟩ := longestMatch_eq_some_iff.mp h
  have hWider : ∀ other : Delimiter, other.opening <+: front → other.opening <+: front ++ back :=
    fun other hOther => hOther.trans (List.prefix_append front back)
  refine longestMatch_eq_some_iff.mpr ⟨earlier, later, hSplit, hOpens, ?_, ?_⟩
  · exact fun other hMem hOther => hEarlier other hMem (hWider other hOther)
  · exact fun other hMem hOther => hLater other hMem (hWider other hOther)

end DelimiterSet

end Placeholder
