import Placeholder.Text
/-!
Counting the members of a list that pass a test: a stricter test that turns one of them away lets
fewer of them pass. Expansions end by such counts.
-/
namespace Placeholder.Counting

theorem length_filter_lt_of_imp {p q : Text → Bool} {keys : List Text} {gone : Text}
    (h : ∀ key ∈ keys, p key → q key) (hMem : gone ∈ keys) (hNot : p gone = false)
    (hWas : q gone = true) : (keys.filter p).length < (keys.filter q).length := by
  have hSplit : keys.filter p = (keys.filter q).filter p := by
    rw [List.filter_filter]
    refine List.filter_congr fun key hIn => ?_
    cases hp : p key with
    | false => simp
    | true => simpa using h key hIn hp
  rw [hSplit]
  exact List.length_filter_lt_length_iff_exists.mpr
    ⟨gone, List.mem_filter.mpr ⟨hMem, hWas⟩, by simp [hNot]⟩

end Placeholder.Counting
