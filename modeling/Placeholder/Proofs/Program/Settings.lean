import Placeholder.Proofs.Files.Writing
import Placeholder.Proofs.Results
import Placeholder.Proofs.Text.Spelling
import Placeholder.Program.Run
/-!
The settings of a run, said member by member. A configuration is looked for under three names, and the
first file that is there counts. A member of its table has one kind of value, or the setting has its
default; on the command line an option takes the place of the setting, or switches it on. The program
comes to just these settings: `configures_iff`, `laysOver_iff`.
-/
namespace Placeholder

namespace Toml.Written

/-- A member of a table has a value of this kind, or there is no such member and the default counts. -/
inductive Tells {α : Type} (kind : Written → α → Prop) (default : α) (members : List (Text × Written))
    (key : String) : α → Prop
  | unsaid (hNone : members.lookup key.toList = none) : Tells kind default members key default
  | said {written : Written} {value : α} (hSome : members.lookup key.toList = some written)
      (hKind : kind written value) : Tells kind default members key value

def IsText (written : Written) (value : Text) : Prop := written = .text value

def IsBoolean (written : Written) (value : Bool) : Prop := written = .boolean value

def IsTexts (written : Written) (values : List Text) : Prop := written = .list (values.map .text)

/-- A whole number of sixty-four bits without a sign. -/
def IsNatural (written : Written) (value : Nat) : Prop := written = .integer value ∧ value < pow2 64

/-- A table of texts. A date or time counts as the table of its text under the key of one. -/
def IsTextTable (written : Written) (table : Placeholder.Table) : Prop :=
  (∃ entries : List (Text × Text),
    written = .table (entries.map fun entry => (entry.1, .text entry.2)) ∧ table = .ofList entries) ∨
  ∃ moment, written = .moment moment ∧ table = .ofList [(momentKey, moment.write)]

variable {written : Written}

theorem text?_eq_some_iff {value : Text} : written.text? = some value ↔ written.IsText value := by
  cases written <;> simp [text?, IsText]

theorem boolean?_eq_some_iff {value : Bool} :
    written.boolean? = some value ↔ written.IsBoolean value := by
  cases written <;> simp [boolean?, IsBoolean]

theorem texts?_eq_some_iff {values : List Text} :
    written.texts? = some values ↔ written.IsTexts values := by
  cases written with
  | list items =>
      rw [texts?, IsTexts, list.injEq]
      exact mapM_eq_some_iff_of_iff fun item value => text?_eq_some_iff
  | _ => simp [texts?, IsTexts]

theorem natural?_eq_some_iff {value : Nat} :
    written.natural? = some value ↔ written.IsNatural value := by
  cases written with
  | integer number =>
      have hGreatest : greatestUnsigned = (pow2 64 : Int) - 1 := rfl
      rw [natural?, IsNatural, integer.injEq, hGreatest]
      split <;> simp only [Option.some.injEq, reduceCtorEq, false_iff] <;> omega
  | _ => simp [natural?, IsNatural]

theorem textTable?_eq_some_iff {table : Placeholder.Table} :
    written.textTable? = some table ↔ written.IsTextTable table := by
  cases written with
  | table members =>
      have hEntries : ∀ (member : Text × Written) (entry : Text × Text),
          ((text? member.2).map fun value => (member.1, value)) = some entry ↔
            member = (entry.1, .text entry.2) := by
        rintro ⟨key, value⟩ ⟨other, text⟩
        rw [Option.map_eq_some_iff]
        constructor
        · rintro ⟨found, hText, hSame⟩
          obtain ⟨rfl, rfl⟩ := Prod.mk.inj hSame
          exact congrArg (Prod.mk key) (text?_eq_some_iff.mp hText)
        · intro hSame
          obtain ⟨rfl, hValue⟩ := Prod.mk.inj hSame
          exact ⟨text, text?_eq_some_iff.mpr hValue, rfl⟩
      rw [textTable?, Option.map_eq_some_iff]
      constructor
      · rintro ⟨entries, hMembers, rfl⟩
        exact .inl ⟨entries, congrArg Written.table ((mapM_eq_some_iff_of_iff hEntries).mp hMembers), rfl⟩
      · rintro (⟨entries, hMembers, rfl⟩ | ⟨moment, hMoment, _⟩)
        · exact ⟨entries, (mapM_eq_some_iff_of_iff hEntries).mpr (table.inj hMembers), rfl⟩
        · cases hMoment
  | moment value =>
      rw [textTable?, Option.some.injEq]
      constructor
      · rintro rfl
        exact .inr ⟨value, rfl, rfl⟩
      · rintro (⟨entries, hTable, _⟩ | ⟨other, hSame, rfl⟩)
        · cases hTable
        · obtain rfl := moment.inj hSame
          rfl
  | _ => simp [textTable?, IsTextTable]

/-- Reading a member is telling what it says. -/
theorem read_eq_some_iff {α : Type} {kind? : Written → Option α} {kind : Written → α → Prop}
    (h : ∀ written value, kind? written = some value ↔ kind written value) {default value : α}
    {members : List (Text × Written)} {key : String} :
    read kind? default members key = some value ↔ Tells kind default members key value := by
  rw [read]
  cases hMember : members.lookup key.toList with
  | none =>
      constructor
      · rintro ⟨⟩
        exact .unsaid hMember
      · intro hTells
        cases hTells with
        | unsaid => rfl
        | said hSome => cases hMember.symm.trans hSome
  | some written =>
      constructor
      · exact fun hKind => .said hMember ((h written value).mp hKind)
      · intro hTells
        cases hTells with
        | unsaid hNone => cases hMember.symm.trans hNone
        | said hSome hKind =>
            obtain rfl := Option.some.inj (hMember.symm.trans hSome)
            exact (h _ value).mpr hKind

end Toml.Written

open Toml (Written)
open Toml.Written (Tells IsText IsTexts IsBoolean IsNatural IsTextTable read_eq_some_iff
  text?_eq_some_iff texts?_eq_some_iff boolean?_eq_some_iff natural?_eq_some_iff
  textTable?_eq_some_iff)

variable {members : List (Text × Written)}

/-- What a table says about the filter. -/
structure FilterOptions.SaidBy (members : List (Text × Written)) (o : FilterOptions) : Prop where
  delimiters : Tells IsTexts [['$', '\x7b', '*', '\x7d'], ['@']] members "delimiters" o.delimiters
  escapeString : Tells (fun written value => ∃ text, value = some text ∧ written.IsText text) none
    members "escape_string" o.escapeString
  preserveEscape : Tells IsBoolean false members "preserve_escape_string" o.preserveEscape
  multiLine : Tells IsBoolean false members "support_multi_line_filtering" o.multiLine
  wholeToken : Tells IsBoolean true members "interpolate_with_prefix_pattern" o.wholeToken
  maxExpression : Tells IsNatural 255 members "max_expression_length" o.maxExpression

theorem FilterOptions.ofWritten?_eq_some_iff {o : FilterOptions} :
    FilterOptions.ofWritten? members = some o ↔ o.SaidBy members := by
  have hEscape : ∀ (written : Written) (value : Option Text), written.text?.map some = some value ↔
      ∃ text, value = some text ∧ written.IsText text := by
    intro written value
    simp only [Option.map_eq_some_iff, text?_eq_some_iff]
    exact ⟨fun ⟨text, hText, hSame⟩ => ⟨text, hSame.symm, hText⟩,
      fun ⟨text, hSame, hText⟩ => ⟨text, hText, hSame.symm⟩⟩
  simp only [FilterOptions.ofWritten?, Option.bind_eq_bind, Option.bind_eq_some_iff, Option.pure_def,
    Option.some.injEq, read_eq_some_iff fun _ _ => texts?_eq_some_iff, read_eq_some_iff hEscape,
    read_eq_some_iff fun _ _ => boolean?_eq_some_iff, read_eq_some_iff fun _ _ => natural?_eq_some_iff]
  constructor
  · rintro ⟨delimiters, hDelimiters, escape, hString, preserve, hPreserve, lines, hLines, whole, hWhole,
      longest, hLongest, rfl⟩
    exact ⟨hDelimiters, hString, hPreserve, hLines, hWhole, hLongest⟩
  · rintro ⟨hDelimiters, hString, hPreserve, hLines, hWhole, hLongest⟩
    exact ⟨_, hDelimiters, _, hString, _, hPreserve, _, hLines, _, hWhole, _, hLongest, rfl⟩

/-- Where a value says a project model is kept: a table does, or a list with the path in front. The
numbers under other keys of the table fit a hundred and twenty-eight bits. -/
inductive Project.SaidBy : Written → Project → Prop
  | table {members : List (Text × Written)} {path : Text} {prefixes : List Text}
      (hPath : members.lookup "path".toList = some (.text path))
      (hPrefixes : Tells IsTexts Model.standardPrefixes members "prefixes" prefixes)
      (hNumbers : ∀ member ∈ members, member.1 ≠ "path".toList → member.1 ≠ "prefixes".toList →
        member.2.numbersWithin (-(pow2 127 : Int)) ((pow2 128 : Int) - 1) = true) :
      SaidBy (.table members) ⟨path, prefixes⟩
  | path (path : Text) : SaidBy (.list [.text path]) ⟨path, Model.standardPrefixes⟩
  | listed {path : Text} {prefixes : List Text} {written : Written} (more : List Written)
      (hPrefixes : written.IsTexts prefixes) :
      SaidBy (.list (.text path :: written :: more)) ⟨path, prefixes⟩

theorem Project.ofWritten?_eq_some_iff {written : Written} {project : Project} :
    Project.ofWritten? written = some project ↔ Project.SaidBy written project := by
  cases written with
  | table members =>
      have hFits : members.all Project.memberFits = true ↔ ∀ member ∈ members,
          member.1 ≠ "path".toList → member.1 ≠ "prefixes".toList →
          member.2.numbersWithin (-(pow2 127 : Int)) ((pow2 128 : Int) - 1) = true := by
        rw [List.all_eq_true]
        refine forall₂_congr fun member _ => ?_
        simp only [Project.memberFits, List.any_cons, List.any_nil, Bool.or_false, Bool.or_eq_true,
          decide_eq_true_eq]
        tauto
      simp only [Project.ofWritten?, Option.bind_eq_bind, Option.bind_eq_some_iff, text?_eq_some_iff,
        read_eq_some_iff fun _ _ => texts?_eq_some_iff]
      constructor
      · rintro ⟨path, ⟨value, hPath, rfl⟩, prefixes, hPrefixes, hRest⟩
        split at hRest
        · rename_i hAll
          obtain rfl := Option.some.inj hRest
          exact .table hPath hPrefixes (hFits.mp hAll)
        · cases hRest
      · rintro ⟨hPath, hPrefixes, hNumbers⟩
        exact ⟨_, ⟨_, hPath, rfl⟩, _, hPrefixes, if_pos (hFits.mpr hNumbers)⟩
  | list items =>
      cases items with
      | nil => simp only [Project.ofWritten?, reduceCtorEq, false_iff]; exact nofun
      | cons first rest =>
          cases rest with
          | nil =>
              simp only [Project.ofWritten?, Option.bind_eq_bind, Option.bind_eq_some_iff,
                Option.bind_some, Option.pure_def, Option.some.injEq, text?_eq_some_iff]
              constructor
              · rintro ⟨path, rfl, rfl⟩
                exact .path path
              · rintro ⟨⟩
                exact ⟨_, rfl, rfl⟩
          | cons second more =>
              simp only [Project.ofWritten?, Option.bind_eq_bind, Option.bind_eq_some_iff,
                Option.pure_def, Option.some.injEq, text?_eq_some_iff, texts?_eq_some_iff]
              constructor
              · rintro ⟨path, rfl, prefixes, hPrefixes, rfl⟩
                exact .listed more hPrefixes
              · intro hSays
                cases hSays with
                | listed _ hPrefixes => exact ⟨_, rfl, _, hPrefixes, rfl⟩
  | _ => simp only [Project.ofWritten?, reduceCtorEq, false_iff]; exact nofun

namespace Configuration

/-- What the table of a configuration says. The numbers under all keys but those of the settings that do
not concern the filter have sixty-four bits, with a sign or without. -/
structure SaidBy (members : List (Text × Written)) (c : Configuration) : Prop where
  filter : c.filter.SaidBy members
  properties : Tells IsTextTable .empty members "properties" c.properties
  filters : Tells IsTexts [] members "filters" c.filters
  project : Tells (fun written value => ∃ project, value = some project ∧ Project.SaidBy written project)
    none members "project" c.project
  windowsPaths : Tells IsBoolean true members "escape_windows_paths" c.windowsPaths
  environment : Tells IsBoolean true members "environment" c.environment
  numbers : ∀ member ∈ members,
    (∀ key ∈ ["properties", "filters", "project", "escape_windows_paths", "environment"],
      member.1 ≠ key.toList) →
    member.2.numbersWithin (-(pow2 63 : Int)) ((pow2 64 : Int) - 1) = true

theorem ofMembers?_eq_some_iff {c : Configuration} :
    ofMembers? members = some c ↔ c.SaidBy members := by
  have hProject : ∀ (written : Written) (value : Option Project),
      (Project.ofWritten? written).map some = some value ↔
        ∃ project, value = some project ∧ Project.SaidBy written project := by
    intro written value
    simp only [Option.map_eq_some_iff, Project.ofWritten?_eq_some_iff]
    exact ⟨fun ⟨project, hSaid, hSame⟩ => ⟨project, hSame.symm, hSaid⟩,
      fun ⟨project, hSame, hSaid⟩ => ⟨project, hSaid, hSame.symm⟩⟩
  have hFits : members.all memberFits = true ↔ ∀ member ∈ members,
      (∀ key ∈ ["properties", "filters", "project", "escape_windows_paths", "environment"],
        member.1 ≠ key.toList) →
      member.2.numbersWithin (-(pow2 63 : Int)) ((pow2 64 : Int) - 1) = true := by
    rw [List.all_eq_true]
    refine forall₂_congr fun member _ => ?_
    rw [memberFits, Bool.or_eq_true, List.any_eq_true, or_iff_not_imp_left, not_exists]
    simp only [ownKeys, decide_eq_true_eq, not_and]
    rfl
  simp only [ofMembers?, Option.bind_eq_bind, Option.bind_eq_some_iff,
    FilterOptions.ofWritten?_eq_some_iff, read_eq_some_iff fun _ _ => texts?_eq_some_iff,
    read_eq_some_iff fun _ _ => textTable?_eq_some_iff, read_eq_some_iff hProject,
    read_eq_some_iff fun _ _ => boolean?_eq_some_iff]
  constructor
  · rintro ⟨filter, hFilter, properties, hProperties, filters, hFilters, project, hModel, windowsPaths,
      hPaths, environment, hVars, hRest⟩
    split at hRest
    · rename_i hAll
      obtain rfl := Option.some.inj hRest
      exact ⟨hFilter, hProperties, hFilters, hModel, hPaths, hVars, hFits.mp hAll⟩
    · cases hRest
  · rintro ⟨hFilter, hProperties, hFilters, hModel, hPaths, hVars, hNumbers⟩
    exact ⟨_, hFilter, _, hProperties, _, hFilters, _, hModel, _, hPaths, _, hVars,
      if_pos (hFits.mpr hNumbers)⟩

end Configuration

/-- A file is read as a text exactly if its bytes are those of the text. -/
theorem FileRead.text_eq_ok_iff {file : FileRead} {text : Text} :
    file.text = .ok text ↔ file.content = .ok (Utf8.encodeText text) := by
  rw [FileRead.text]
  cases file.content with
  | error failure => simp [bind, Except.bind]
  | ok bytes =>
      simp only [bind, Except.bind, Except.ok.injEq, ← Utf8.decodeText?_eq_some_iff]
      cases Utf8.decodeText? bytes <;> simp

/-- A configuration is loaded from a file exactly if the file is a text that writes a table which says
it. -/
theorem Configuration.ofRead_eq_ok_iff {file : FileRead} {c : Configuration} :
    Configuration.ofRead file = .ok c ↔ ∃ content members,
      file.content = .ok (Utf8.encodeText content) ∧
      TomlFile.read? content = some (.table members) ∧ c.SaidBy members := by
  have hParse : ∀ content, Configuration.parse content = .ok c ↔
      ∃ members, TomlFile.read? content = some (.table members) ∧ c.SaidBy members := by
    intro content
    simp only [← Configuration.ofMembers?_eq_some_iff]
    rw [Configuration.parse]
    cases TomlFile.read? content with
    | none => simp
    | some written =>
        cases written with
        | table members =>
            simp only [Option.bind_some, Configuration.ofWritten?, Option.some.injEq,
              Written.table.injEq, exists_eq_left']
            cases Configuration.ofMembers? members <;> simp
        | _ => simp [Configuration.ofWritten?]
  simp only [← FileRead.text_eq_ok_iff]
  rw [Configuration.ofRead]
  cases file.text with
  | error failure => simp [Except.mapError, bind, Except.bind]
  | ok content =>
      simp only [Except.mapError, bind, Except.bind, Except.ok.injEq, exists_and_left, exists_eq_left']
      exact hParse content

namespace FileTree

/-- Which file holds the configuration for a root, if one does: the first of three that is there. -/
inductive Finds (tree : FileTree) (root : Text) : Option Text → Prop
  | plain (hFirst : tree.isFile (Path.join root "interpol.toml".toList) = true) :
      Finds tree root (some (Path.join root "interpol.toml".toList))
  | hidden (hFirst : tree.isFile (Path.join root "interpol.toml".toList) = false)
      (hSecond : tree.isFile (Path.join root ".interpol.toml".toList) = true) :
      Finds tree root (some (Path.join root ".interpol.toml".toList))
  | apart (hFirst : tree.isFile (Path.join root "interpol.toml".toList) = false)
      (hSecond : tree.isFile (Path.join root ".interpol.toml".toList) = false)
      (hThird : tree.isFile (Path.join root ".config/interpol.toml".toList) = true) :
      Finds tree root (some (Path.join root ".config/interpol.toml".toList))
  | nowhere (hFirst : tree.isFile (Path.join root "interpol.toml".toList) = false)
      (hSecond : tree.isFile (Path.join root ".interpol.toml".toList) = false)
      (hThird : tree.isFile (Path.join root ".config/interpol.toml".toList) = false) :
      Finds tree root none

/-- The configuration for a root: what the file says that holds it, if that is a text and the text writes
a table; if there is no such file, what a table without members says. -/
inductive Configures (tree : FileTree) (root : Text) (c : Configuration) : Prop
  | standard (hNowhere : tree.Finds root none) (hSaid : c.SaidBy [])
  | loaded {path content : Text} {members : List (Text × Written)}
      (hFound : tree.Finds root (some path))
      (hContent : (tree.fileAt path).content = .ok (Utf8.encodeText content))
      (hTable : TomlFile.read? content = some (.table members)) (hSaid : c.SaidBy members)

variable {tree : FileTree} {root : Text} {found : Option Text} {c : Configuration}

theorem finds_iff : tree.Finds root found ↔ (Configuration.candidates root).find? tree.isFile = found := by
  have hFind : (Configuration.candidates root).find? tree.isFile =
      if tree.isFile (Path.join root "interpol.toml".toList) then
        some (Path.join root "interpol.toml".toList)
      else if tree.isFile (Path.join root ".interpol.toml".toList) then
        some (Path.join root ".interpol.toml".toList)
      else if tree.isFile (Path.join root ".config/interpol.toml".toList) then
        some (Path.join root ".config/interpol.toml".toList)
      else none := by
    simp only [Configuration.candidates, List.map_cons, List.map_nil, List.find?_cons, List.find?_nil]
    cases tree.isFile (Path.join root "interpol.toml".toList) <;>
      cases tree.isFile (Path.join root ".interpol.toml".toList) <;>
        cases tree.isFile (Path.join root ".config/interpol.toml".toList) <;> rfl
  rw [hFind]
  constructor
  · intro hFinds
    cases hFinds with
    | plain hFirst => simp only [hFirst, if_true]
    | hidden hFirst hSecond => simp only [hFirst, hSecond, if_true, Bool.false_eq_true, if_false]
    | apart hFirst hSecond hThird =>
        simp only [hFirst, hSecond, hThird, if_true, Bool.false_eq_true, if_false]
    | nowhere hFirst hSecond hThird =>
        simp only [hFirst, hSecond, hThird, Bool.false_eq_true, if_false]
  · rintro rfl
    split
    · rename_i hFirst
      exact .plain hFirst
    · rename_i hFirst
      rw [Bool.not_eq_true] at hFirst
      split
      · rename_i hSecond
        exact .hidden hFirst hSecond
      · rename_i hSecond
        rw [Bool.not_eq_true] at hSecond
        split
        · rename_i hThird
          exact .apart hFirst hSecond hThird
        · rename_i hThird
          exact .nowhere hFirst hSecond (Bool.not_eq_true _ ▸ hThird)

/-- What the first file says that may hold the configuration for a root; if there is none, the
configuration that says nothing. -/
def configuration (tree : FileTree) (root : Text) : Except Failure Configuration :=
  match (Configuration.candidates root).find? tree.isFile with
  | none => .ok .standard
  | some path => Configuration.ofRead (tree.fileAt path)

/-- The configuration that a run loads is the one for its root. -/
theorem configures_iff : tree.Configures root c ↔ tree.configuration root = .ok c := by
  have hStandard : c.SaidBy [] ↔ Configuration.standard = c := by
    have hEmpty : Configuration.ofMembers? [] = some .standard := rfl
    rw [← Configuration.ofMembers?_eq_some_iff, hEmpty, Option.some.injEq]
  rw [configuration]
  cases hFind : (Configuration.candidates root).find? tree.isFile with
  | none =>
      rw [Except.ok.injEq, ← hStandard]
      constructor
      · intro hConfigures
        cases hConfigures with
        | standard _ hSaid => exact hSaid
        | loaded hFound => cases hFind.symm.trans (finds_iff.mp hFound)
      · exact fun hSaid => .standard (finds_iff.mpr hFind) hSaid
  | some path =>
      simp only [Configuration.ofRead_eq_ok_iff]
      constructor
      · intro hConfigures
        cases hConfigures with
        | standard hNowhere => cases hFind.symm.trans (finds_iff.mp hNowhere)
        | loaded hFound hContent hTable hSaid =>
            obtain rfl := Option.some.inj (hFind.symm.trans (finds_iff.mp hFound))
            exact ⟨_, _, hContent, hTable, hSaid⟩
      · rintro ⟨content, members, hContent, hTable, hSaid⟩
        exact .loaded (finds_iff.mpr hFind) hContent hTable hSaid

end FileTree

/-- The switches of the filter with the command line laid over them. Delimiters of the command line
replace all others, and so does its escape string; two switches can be turned on, and for the other two
there is no option. -/
structure Arguments.LaysOver (a : Arguments) (under merged : FilterOptions) : Prop where
  delimiters : a.delimiters = [] ∧ merged.delimiters = under.delimiters ∨
    a.delimiters ≠ [] ∧ merged.delimiters = a.delimiters
  escapeString : a.escape = .none ∧ merged.escapeString = under.escapeString ∨
    ∃ text, a.escape = some text ∧ merged.escapeString = some text
  preserveEscape : merged.preserveEscape = true ↔ a.preserveEscape = true ∨ under.preserveEscape = true
  multiLine : merged.multiLine = true ↔ a.multiLine = true ∨ under.multiLine = true
  wholeToken : merged.wholeToken = under.wholeToken
  maxExpression : merged.maxExpression = under.maxExpression

theorem laysOver_iff (directory : Text) {a : Arguments} {c : Configuration} {merged : FilterOptions} :
    a.LaysOver c.filter merged ↔ (a.layOver directory c).filter = merged := by
  constructor
  · intro h
    obtain ⟨delimiters, escape, preserve, lines, whole, longest⟩ := merged
    have hDelimiters : (if a.delimiters.isEmpty then c.filter.delimiters else a.delimiters) =
        delimiters := by
      rcases h.delimiters with ⟨hNone, hSame⟩ | ⟨hSome, hSame⟩
      · rw [if_pos (List.isEmpty_iff.mpr hNone)]
        exact hSame.symm
      · rw [if_neg fun hEmpty => hSome (List.isEmpty_iff.mp hEmpty)]
        exact hSame.symm
    have hEscape : a.escape.or c.filter.escapeString = escape := by
      rcases h.escapeString with ⟨hNone, hSame⟩ | ⟨text, hSome, hSame⟩
      · rw [hNone, Option.none_or]
        exact hSame.symm
      · rw [hSome, Option.some_or]
        exact hSame.symm
    have hPreserve : (a.preserveEscape || c.filter.preserveEscape) = preserve := by
      rw [Bool.eq_iff_iff, Bool.or_eq_true]
      exact h.preserveEscape.symm
    have hLines : (a.multiLine || c.filter.multiLine) = lines := by
      rw [Bool.eq_iff_iff, Bool.or_eq_true]
      exact h.multiLine.symm
    obtain rfl : whole = c.filter.wholeToken := h.wholeToken
    obtain rfl : longest = c.filter.maxExpression := h.maxExpression
    rw [Arguments.layOver, hDelimiters, hEscape, hPreserve, hLines]
  · rintro rfl
    refine ⟨?_, ?_, Bool.or_eq_true _ _ ▸ Iff.rfl, Bool.or_eq_true _ _ ▸ Iff.rfl, rfl, rfl⟩
    · by_cases hNone : a.delimiters = []
      · exact .inl ⟨hNone, if_pos (List.isEmpty_iff.mpr hNone)⟩
      · exact .inr ⟨hNone, if_neg fun hEmpty => hNone (List.isEmpty_iff.mp hEmpty)⟩
    · cases hEscape : a.escape with
      | none => exact .inl ⟨rfl, by rw [Arguments.layOver, hEscape, Option.none_or]⟩
      | some text => exact .inr ⟨text, rfl, by rw [Arguments.layOver, hEscape, Option.some_or]⟩

end Placeholder
