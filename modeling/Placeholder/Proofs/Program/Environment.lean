import Placeholder.Proofs.Program.Running
/-!
Runs in two environments. Where the command line or the configuration says that variables are no
values, no run can tell one environment from another: neither by the source of variables nor by the
references in filter files, on whatever way the values go from there.
-/
namespace Placeholder

/-- Where variables are no values, the expander does not depend on them. -/
theorem Configuration.prepare_of_hidden {c : Configuration} (h : c.environment = false)
    (overrides vars other : Table) (files : ConfigurationFiles) :
    c.prepare overrides vars files = c.prepare overrides other files := by
  have hVisible : c.visible vars = c.visible other := by rw [visible, visible, h]; rfl
  have hSources : ∀ filtered model,
      c.sources overrides vars filtered model = c.sources overrides other filtered model := by
    intro filtered model
    rw [sources, sources, h]
    rfl
  simp only [prepare, resolver, hVisible, hSources]

namespace Program

variable {tree : FileTree} {a : Arguments} {words : List Text}

/-- The command line says that variables are no values, or the configuration that it leads to does. -/
def HidesEnvironment (tree : FileTree) (a : Arguments) : Prop :=
  a.noEnvironment = true ∨
    ∃ c, tree.configuration (root a tree.directory) = .ok c ∧ c.environment = false

/-- Filtering looks at the environment only through the expander. -/
theorem filter_of_same_input (storage : Storage (StateM FileTree)) {s other : Surroundings}
    (h : s.input = other.input) (a : Arguments) (c : Configuration) (x : Expander)
    (notices : List Notice) :
    filter storage s a c x notices = filter storage other a c x notices := by
  have hOpen : openInput storage s a = openInput storage other a := by
    rw [openInput, openInput, h]
  have hFeed : inputFeed storage s a = inputFeed storage other a := by
    rw [inputFeed, inputFeed, h]
  rw [filter, filter, hOpen, hFeed]

theorem run_of_hidden (h : HidesEnvironment tree a) (vars other : Table) (input : StandardInput) :
    run FileTree.storage ⟨vars, input⟩ a tree = run FileTree.storage ⟨other, input⟩ a tree := by
  rw [run_storage, run_storage]
  cases hConfigured : tree.configuration (root a tree.directory) with
  | error failure => rfl
  | ok c =>
      have hHidden : (a.layOver tree.directory c).environment = false := by
        show (c.environment && !a.noEnvironment) = false
        rcases h with hLine | ⟨found, hFound, hFile⟩
        · rw [hLine, Bool.not_true, Bool.and_false]
        · obtain rfl := Except.ok.inj (hConfigured.symm.trans hFound)
          rw [hFile, Bool.false_and]
      have hPrepare := Configuration.prepare_of_hidden hHidden (overrides a) vars other
        (tree.filesOf (a.layOver tree.directory c) (root a tree.directory))
      have hFilter : ∀ x notices,
          filter FileTree.storage ⟨vars, input⟩ a (a.layOver tree.directory c) x notices =
            filter FileTree.storage ⟨other, input⟩ a (a.layOver tree.directory c) x notices :=
        filter_of_same_input FileTree.storage rfl a (a.layOver tree.directory c)
      simp only [hPrepare, hFilter]

/-- Two environments. Where the command line or the configuration says that variables are no values,
both runs have the same outcome, with the exit code, the output, the failure and all notices, and leave
the same files behind. -/
theorem environment_unnoticed (tree : FileTree) (input : StandardInput) (words : List Text)
    (vars other : Table)
    (hHides : ∀ a, Arguments.read words = .ok a → HidesEnvironment tree a) :
    start FileTree.storage ⟨vars, input⟩ words tree =
      start FileTree.storage ⟨other, input⟩ words tree := by
  cases hRead : Arguments.read words with
  | error stop => simp only [start, hRead]
  | ok a =>
      have hRun := run_of_hidden (hHides a hRead) vars other input
      simp only [start, hRead, bind, StateT.bind, hRun]

/-- A variable that is defined or not, and a filter file that refers to it. -/
theorem environment_unnoticed_variable :
    let tree : FileTree :=
      ⟨[([['p']], .file (Utf8.encodeText ['k', '=', '$', '\x7b', 'v', '\x7d']))], []⟩
    let words : List Text := ["--no-env".toList, "--filter-file=p".toList]
    (∃ a, Arguments.read words = .ok a ∧ a.filterFiles = [['p']]) ∧
    (∀ a, Arguments.read words = .ok a → HidesEnvironment tree a) ∧
    start FileTree.storage ⟨.ofList [(['v'], ['1'])], .ofBytes (Utf8.encodeText ['@', 'k', '@'])⟩ words
        tree =
      start FileTree.storage ⟨.empty, .ofBytes (Utf8.encodeText ['@', 'k', '@'])⟩ words tree := by
  intro tree words
  have hHides : ∀ a, Arguments.read words = .ok a → HidesEnvironment tree a := by
    intro a hRead
    obtain rfl := Except.ok.inj hRead
    exact .inl rfl
  exact ⟨⟨_, rfl, rfl⟩, hHides, environment_unnoticed tree _ words _ _ hHides⟩

end Program

end Placeholder
