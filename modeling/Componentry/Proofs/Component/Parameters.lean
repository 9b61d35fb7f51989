import Componentry.Component.Compile
import Componentry.Proofs.Component.Declaration

/-!
The parameters of a component in its module. They stand between parentheses as they did in the
source, but without the blanks at their ends, and among these may be the line feed that ended a
comment or a string.
-/
namespace Componentry

open Code

namespace Module

variable {header : Header} {prelude expression : Text} {options : Options}

def lead (header : Header) (options : Options) : Text :=
  ((lines header [] [] options).take 6).flatten ++ "  async onInit".toList

def rest (header : Header) (prelude expression : Text) (options : Options) : Text :=
  " \x7b /* optional init hook */ \x7d\n".toList ++
    ((lines header prelude expression options).drop 7).flatten

theorem generate_eq (header : Header) (prelude expression : Text) (options : Options) :
    generate header prelude expression options =
      lead header options ++ '(' :: (header.parameters.trim ++ ')' :: rest header prelude
        expression options) := by
  have hlines : lines header prelude expression options = (lines header [] [] options).take 6 ++
      ("  async onInit(".toList ++ header.parameters.trim ++
        ") \x7b /* optional init hook */ \x7d\n".toList) ::
      (lines header prelude expression options).drop 7 := rfl
  have hinit : "  async onInit(".toList = "  async onInit".toList ++ ['('] := rfl
  have hhook : ") \x7b /* optional init hook */ \x7d\n".toList =
    ')' :: " \x7b /* optional init hook */ \x7d\n".toList := rfl
  have hgenerate := congrArg List.flatten hlines
  rw [List.flatten_append, List.flatten_cons, hinit, hhook] at hgenerate
  unfold generate lead rest
  rw [hgenerate]
  simp only [List.append_assoc, List.cons_append, List.nil_append]

theorem not_dangling {t : Text} (h : Delimited t) : ¬Dangling (advance [.group] t) := by
  intro hd
  rcases delimited_iff_atCloser.mp h with ha | ha <;> rw [ha] at hd <;> cases hd

theorem closer?_generate_iff (h : Delimited header.parameters) :
    closer? (generate header prelude expression options) (lead header options).size =
        some ((lead header options).size + 1 + header.parameters.trim.size) ↔
      ¬Dangling (advance [.group] header.parameters.trim) := by
  rw [generate_eq, closer?_append]
  constructor
  case mp =>
    intro hclose
    obtain ⟨⟨inside, rest⟩, hg, hsize⟩ := Option.map_eq_some_iff.mp hclose
    obtain ⟨d, he, _⟩ := exists_closer hg
    obtain ⟨hi, _⟩ := Text.append_inj_of_size he (by simpa using hsize.symm)
    exact not_dangling (hi ▸ delimited_of_group? hg)
  case mpr =>
    intro hd
    have hgroup := (h.trim.resolve_right hd).group?_eq (rest header prelude expression options)
    rw [List.cons_append] at hgroup
    rw [hgroup]
    rfl

end Module

namespace Component

variable {file source : Text} {options : Options} {m : Module} {c : Component}

theorem delimited_of_read (h : read source = .ok c) : Delimited c.header.parameters := by
  simp only [read, bind, Except.bind] at h
  split at h
  case h_1 => simp at h
  case h_2 header he =>
    split at h
    case h_1 => simp at h
    case h_2 =>
      split at h
      case h_2 => simp at h
      case h_1 =>
        cases h
        exact Header.delimited_of_extract he

theorem analyze_of_read (h : read source = .ok c) (file : Text) : analyze file source = .ok c := by
  rw [analyze, h]
  rfl

-- The parenthesis before the parameters is closed after them, unless trimming took the end of a
-- comment or a string from them.
theorem closer?_code_iff (h : compile file source options = .ok m) :
    ∃ c before after, analyze file source = .ok c ∧ before = Module.lead c.header options ∧
      m.code = before ++ '(' :: (c.header.parameters.trim ++ ')' :: after) ∧
      (closer? m.code before.size = some (before.size + 1 + c.header.parameters.trim.size) ↔
        ¬Dangling (advance [.group] c.header.parameters.trim)) := by
  obtain ⟨c, hread, rfl⟩ := compile_eq_ok_iff.mp h
  exact ⟨c, _, _, analyze_of_read hread file, rfl, Module.generate_eq ..,
    Module.closer?_generate_iff (delimited_of_read hread)⟩

theorem exists_read {parameters : Text}
    (h : (read source).toOption.map (·.header.parameters) = some parameters) :
    ∃ c, read source = .ok c ∧ c.header.parameters = parameters := by
  cases hr : read source
  case error => simp [hr, Except.toOption] at h
  case ok c => exact ⟨c, rfl, by simpa [hr, Except.toOption] using h⟩

-- Parentheses in a template, in a string in that template and in a comment.
theorem closer?_code_nested : ∃ m before after,
    compile [] "export ephemeral A( a = `)$\x7bf(\")\")\x7d` /* ( */ ) \x7b render(x) \x7d".toList
    {} = .ok m ∧
      m.code = before ++ '(' :: ("a = `)$\x7bf(\")\")\x7d` /* ( */".toList ++ ')' :: after) ∧
      closer? m.code before.size = some (before.size + 1 + 24) := by
  obtain ⟨c, hread, hparameters⟩ := @exists_read
    "export ephemeral A( a = `)$\x7bf(\")\")\x7d` /* ( */ ) \x7b render(x) \x7d".toList
    " a = `)$\x7bf(\")\")\x7d` /* ( */ ".toList (by decide +kernel)
  have hcompile := (@compile_eq_ok_iff [] _ {} (c.toModule {})).mpr ⟨c, hread, rfl⟩
  obtain ⟨c', before, after, hanalyze, _, hcode, hiff⟩ := closer?_code_iff hcompile
  have hc : c = c' := Except.ok.inj ((analyze_of_read hread []).symm.trans hanalyze)
  have htrim : c'.header.parameters.trim = "a = `)$\x7bf(\")\")\x7d` /* ( */".toList := by
    rw [← hc, hparameters]
    decide +kernel
  have hsize : Text.size "a = `)$\x7bf(\")\")\x7d` /* ( */".toList = 24 := by decide +kernel
  have hadvance : advance [.group] "a = `)$\x7bf(\")\")\x7d` /* ( */".toList = [.group] := by
    decide +kernel
  rw [htrim] at hcode hiff
  rw [hsize, hadvance] at hiff
  exact ⟨_, before, after, hcompile, hcode, hiff.mpr (by rintro ⟨⟩)⟩

-- The comment takes the parenthesis with it.
theorem not_closer?_of_line_comment : ∃ m c,
    compile [] "export ephemeral A(a //\n) \x7b render(x) \x7d".toList {} = .ok m ∧
      analyze [] "export ephemeral A(a //\n) \x7b render(x) \x7d".toList = .ok c ∧
      closer? m.code (Module.lead c.header {}).size ≠
        some ((Module.lead c.header {}).size + 1 + c.header.parameters.trim.size) := by
  obtain ⟨c, hread, hparameters⟩ := @exists_read
    "export ephemeral A(a //\n) \x7b render(x) \x7d".toList "a //\n".toList (by decide +kernel)
  refine ⟨_, c, compile_eq_ok_iff.mpr ⟨c, hread, rfl⟩, analyze_of_read hread [], ?_⟩
  have hdangling : advance [.group] c.header.parameters.trim = [.line, .group] := by
    rw [hparameters]
    decide +kernel
  refine mt (Module.closer?_generate_iff (delimited_of_read hread)).mp (not_not_intro ?_)
  rw [hdangling]
  exact .line

end Component
end Componentry
