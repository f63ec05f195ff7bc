import Placeholder.Files.Tree
import Placeholder.Proofs.Text.Search
/-!
Reading from a tree and writing to it. Reading leaves the tree as it is. Writing gives one place its
content and leaves all others alone; every path that led somewhere before leads there still, so what
is read through it changes only if it leads to the very place that was written.
-/
namespace Placeholder.FileTree

variable {tree : FileTree} {path : Text} {place : List Text}

/-- What comes of reading the file at a path. -/
def fileAt (tree : FileTree) (path : Text) : FileRead := ⟨path, answer path (tree.read path)⟩

theorem storage_readAll (tree : FileTree) (paths : List Text) :
    storage.readAll paths tree = (paths.map tree.fileAt, tree) := by
  induction paths with
  | nil => rfl
  | cons path rest ih =>
      have hHere : storage.read path tree = (tree.fileAt path, tree) := rfl
      simp only [Storage.readAll, bind, StateT.bind, hHere, ih]
      rfl

theorem storage_firstFile (tree : FileTree) (paths : List Text) :
    storage.firstFile paths tree = (paths.find? tree.isFile, tree) := by
  induction paths with
  | nil => rfl
  | cons path rest ih =>
      have hHere : storage.isFile path tree = (tree.isFile path, tree) := rfl
      simp only [Storage.firstFile, bind, StateT.bind, hHere, List.find?_cons]
      cases tree.isFile path with
      | true => rfl
      | false => exact ih

theorem lookup_filter_ne {entries : List (List Text × FileEntry)} {other : List Text}
    (h : other ≠ place) :
    (entries.filter fun entry => entry.1 != place).lookup other = entries.lookup other := by
  induction entries with
  | nil => rfl
  | cons entry rest ih =>
      obtain ⟨own, held⟩ := entry
      by_cases hOwn : own = place
      · rw [List.filter_cons_of_neg (by simp [hOwn]), ih, List.lookup_cons,
          beq_eq_false_iff_ne.mpr fun hSame => h (hSame.trans hOwn)]
      · rw [List.filter_cons_of_pos (by simp [hOwn]), List.lookup_cons, List.lookup_cons, ih]

/-- Writing gives one place its content and no other. -/
theorem entry_put (tree : FileTree) (hPlace : place ≠ []) (content : Bytes) (other : List Text) :
    FileTree.entry? (tree.put place content) other =
      if other = place then some (.file content) else tree.entry? other := by
  rw [ entry?, put]
  by_cases hOther : other = place
  · rw [hOther, if_neg (by simpa using hPlace), if_pos rfl, List.lookup_cons, beq_self_eq_true]
  · rw [if_neg hOther, List.lookup_cons, beq_eq_false_iff_ne.mpr hOther, entry?,
      lookup_filter_ne hOther]

/-- Of two contents written to one place the later stays. -/
theorem put_put (tree : FileTree) (place : List Text) (first second : Bytes) :
    (tree.put place first).put place second = tree.put place second := by
  simp [put]

/-- What is needed for writing to a place: it is not the root, and no directory is there. -/
structure Writable (tree : FileTree) (place : List Text) : Prop where
  below : place ≠ []
  free : tree.entry? place ≠ some .directory

/-- A directory stays one when a file is written. -/
theorem Writable.directory (h : tree.Writable place) (content : Bytes) {other : List Text}
    (hOther : tree.entry? other = some .directory) :
    FileTree.entry? (tree.put place content) other = some .directory := by
  have hApart : other ≠ place := fun hSame => h.free (hSame ▸ hOther)
  rw [entry_put tree h.below, if_neg hApart, hOther]

theorem Writable.isSome (h : tree.Writable place) (content : Bytes) {other : List Text}
    (hOther : (tree.entry? other).isSome) : (FileTree.entry? (tree.put place content) other).isSome := by
  rw [entry_put tree h.below]
  split
  · rfl
  · exact hOther

/-- A step that leads somewhere still leads there. -/
theorem Writable.step (h : tree.Writable place) (content : Bytes) {piece : Text}
    {start next : List Text} (hStep : tree.step start piece = .ok next) :
    (tree.put place content).step start piece = .ok next := by
  simp only [FileTree.step] at hStep ⊢
  split at hStep
  · rename_i hDirectory
    -- From here on the tree is only asked whether there is something at the next place.
    have hThere : (tree.entry? (start ++ [piece])).isSome →
        (FileTree.entry? (tree.put place content) (start ++ [piece])).isSome := h.isSome content
    rw [if_pos (h.directory content hDirectory)]
    grind
  · cases hStep

/-- So does a whole walk. -/
theorem Writable.walk (h : tree.Writable place) (content : Bytes) {steps : List Text}
    {start reached : List Text} (hWalk : steps.foldlM tree.step start = .ok reached) :
    steps.foldlM (tree.put place content).step start = .ok reached := by
  induction steps generalizing start with
  | nil => exact hWalk
  | cons piece steps ih =>
      rw [List.foldlM_cons] at hWalk ⊢
      cases hStep : tree.step start piece with
      | error fault =>
          rw [hStep] at hWalk
          cases hWalk
      | ok next =>
          rw [hStep] at hWalk
          rw [h.step content hStep]
          exact ih hWalk

theorem Writable.locate (h : tree.Writable place) (content : Bytes) {reached : List Text}
    (hLocate : tree.locate path = .ok reached) :
    (tree.put place content).locate path = .ok reached := by
  rw [FileTree.locate] at hLocate ⊢
  cases hPieces : pieces path with
  | error fault =>
      rw [hPieces] at hLocate
      cases hLocate
  | ok steps =>
      rw [hPieces] at hLocate
      exact h.walk content hLocate

/-- The last piece of a path is its name. -/
theorem cutAt_eq (path : Text) :
    path.cutAt '/' = (path.cutAt '/').dropLast ++ [Path.name path] := by
  have hSome := Text.cutAt_ne_nil '/' path
  rw [Path.name, List.getLast?_eq_some_getLast hSome, Option.getD_some,
    List.dropLast_concat_getLast hSome]

/-- A path through which a file can be written, and the directory that is to keep it. -/
structure Roomy (tree : FileTree) (path : Text) (above : List Text) : Prop where
  known : pieces path = .ok (path.cutAt '/')
  walk : (path.cutAt '/').dropLast.foldlM tree.step (tree.start path) = .ok above
  directory : tree.entry? above = some .directory
  named : ¬ ((Path.name path).isEmpty || Path.name path = ['.'] || Path.name path = ['.', '.'])
  short : ¬ longestName < Utf8.size (Path.name path)
  free : tree.entry? (above ++ [Path.name path]) ≠ some .directory

theorem pieces_of_ok {steps : List Text} (h : pieces path = .ok steps) :
    steps = path.cutAt '/' := by
  rw [pieces] at h
  split at h
  · cases h
  · split at h
    · cases h
    · exact (Except.ok.inj h).symm

theorem roomy_of_room (h : tree.room path = .ok place) :
    ∃ above, tree.Roomy path above ∧ place = above ++ [Path.name path] := by
  rw [room] at h
  cases hPieces : pieces path with
  | error fault =>
      rw [hPieces] at h
      cases h
  | ok steps =>
      obtain rfl := pieces_of_ok hPieces
      rw [hPieces] at h
      cases hWalk : (path.cutAt '/').dropLast.foldlM tree.step (tree.start path) with
      | error fault =>
          simp only [bind, Except.bind, hWalk] at h
          cases h
      | ok above =>
          simp only [bind, Except.bind, hWalk] at h
          split at h
          · rename_i hDirectory
            split at h
            · cases h
            · rename_i hNamed
              split at h
              · cases h
              · rename_i hShort
                split at h
                · cases h
                · rename_i hFree
                  exact ⟨above, ⟨hPieces, hWalk, hDirectory, hNamed, hShort, hFree⟩,
                    (Except.ok.inj h).symm⟩
          · cases h

namespace Roomy

variable {above : List Text}

theorem room (h : tree.Roomy path above) : tree.room path = .ok (above ++ [Path.name path]) := by
  simp only [FileTree.room, bind, Except.bind, h.known, h.walk]
  rw [if_pos h.directory, if_neg h.named, if_neg h.short, if_neg h.free]

theorem writable (h : tree.Roomy path above) : tree.Writable (above ++ [Path.name path]) :=
  ⟨List.append_ne_nil_of_right_ne_nil _ (List.cons_ne_nil _ _), h.free⟩

/-- There is room for the file again once it was written. -/
theorem put (h : tree.Roomy path above) (content : Bytes) :
    (tree.put (above ++ [Path.name path]) content).Roomy path above where
  known := h.known
  walk := h.writable.walk content h.walk
  directory := h.writable.directory content h.directory
  named := h.named
  short := h.short
  free := by
    rw [entry_put tree h.writable.below, if_pos rfl]
    exact fun hFile => by cases hFile

/-- The path leads to the file that was written. -/
theorem locate_put (h : tree.Roomy path above) (content : Bytes) :
    (tree.put (above ++ [Path.name path]) content).locate path =
      .ok (above ++ [Path.name path]) := by
  have hThere := h.put content
  have hFile : (FileTree.entry? (tree.put (above ++ [Path.name path]) content)
      (above ++ [Path.name path])).isSome := by
    rw [entry_put tree h.writable.below, if_pos rfl, Option.isSome_some]
  have hNamed := h.named
  simp only [Bool.or_eq_true, decide_eq_true_eq, not_or] at hNamed
  rw [FileTree.locate, hThere.known]
  show (path.cutAt '/').foldlM _ _ = _
  rw [cutAt_eq, List.foldlM_append, hThere.walk]
  show List.foldlM _ above _ = _
  rw [List.foldlM_cons, step, if_pos hThere.directory, if_neg (by simp [hNamed]), if_neg hNamed.2,
    if_neg h.short, if_pos hFile]
  rfl

end Roomy

/-- What is read through a path once a file was written: its content where the path leads to it, and
the same as before elsewhere. -/
theorem read_put (h : tree.Writable place) (content : Bytes) {reached : List Text}
    (hLocate : tree.locate path = .ok reached) :
    (tree.put place content).read path = if reached = place then .ok content else tree.read path := by
  rw [read, find, read, find, h.locate content hLocate, hLocate]
  simp only [bind, Except.bind, entry_put tree h.below]
  by_cases hSame : reached = place
  · rw [if_pos hSame, if_pos hSame]
  · rw [if_neg hSame, if_neg hSame]

end Placeholder.FileTree
