import Componentry.Markup.Preview
import Componentry.Proofs.Markup.Evaluation

/-!
The two ways to a rendered text agree: the template of markup, evaluated, and the preview of it.
-/
namespace Componentry

structure Environment.Extends (env : Environment) (scope : Scope) : Prop where
  value {identifier v : Text} : scope.get? identifier = some v → env.value identifier = v
  holds {condition : Text} {b : Bool} :
    Static.condition scope condition = some b → env.holds condition = b

namespace Markup

open Code

variable {m : Markup} {env : Environment} {scope : Scope}

theorem render_of_preview (he : env.Extends scope) {v : Text} (h : m.preview scope = some v) :
    m.render env = v := by
  induction m generalizing v <;> simp only [preview, Option.bind_eq_bind] at h
  case empty => exact Option.some.inj h
  case text content rest ih =>
    obtain ⟨w, hw, hv⟩ := Option.map_eq_some_iff.mp h
    rw [render, ih hw, hv]
  case name identifier rest ih =>
    obtain ⟨value, hvalue, h⟩ := Option.bind_eq_some_iff.mp h
    obtain ⟨w, hw, hv⟩ := Option.map_eq_some_iff.mp h
    rw [render, he.value hvalue, ih hw, hv]
  case conditional condition body alternate rest ihb iha ih =>
    obtain ⟨holds, hholds, h⟩ := Option.bind_eq_some_iff.mp h
    rw [render, he.holds hholds]
    cases holds
    all_goals
      obtain ⟨block, hblock, h⟩ := Option.bind_eq_some_iff.mp h
      obtain ⟨w, hw, hv⟩ := Option.map_eq_some_iff.mp h
      rw [ih hw, ← hv]
    case false => exact congrArg (· ++ w) (iha hblock)
    case true => exact congrArg (· ++ w) (ihb hblock)

theorem isSome_preview (hn : ∀ n ∈ m.names, (scope.get? n).isSome)
    (hc : ∀ c ∈ m.conditions, (Static.condition scope c).isSome) : (m.preview scope).isSome := by
  induction m <;> simp only [preview, Option.bind_eq_bind]
  case empty => rfl
  case text content rest ih => simpa using ih hn hc
  case name identifier rest ih =>
    obtain ⟨hname, hn⟩ := List.forall_mem_cons.mp hn
    obtain ⟨value, hvalue⟩ := Option.isSome_iff_exists.mp hname
    simpa [hvalue] using ih hn hc
  case conditional condition body alternate rest ihb iha ih =>
    simp only [names, List.forall_mem_append] at hn
    simp only [conditions, List.cons_append, List.forall_mem_cons, List.forall_mem_append] at hc
    obtain ⟨⟨hnb, hna⟩, hnr⟩ := hn
    obtain ⟨hc, ⟨hcb, hca⟩, hcr⟩ := hc
    obtain ⟨holds, hholds⟩ := Option.isSome_iff_exists.mp hc
    obtain ⟨yes, hyes⟩ := Option.isSome_iff_exists.mp (ihb hnb hcb)
    obtain ⟨no, hno⟩ := Option.isSome_iff_exists.mp (iha hna hca)
    obtain ⟨w, hw⟩ := Option.isSome_iff_exists.mp (ih hnr hcr)
    cases holds <;> simp [hholds, hyes, hno, hw]

-- The template is read to its end and yields what the markup renders to. That is also what the
-- preview yields, where it yields anything, and it does where all names and conditions are known.
theorem evaluate?_template (hn : ∀ n ∈ m.names, Identifier.IsName n)
    (hc : ∀ c ∈ m.conditions, Delimited c) (ht : m.textsApart) (env : Environment) :
    (∀ rest, env.evaluate? (m.template ++ rest) = some (m.render env, rest)) ∧
      ∀ scope, env.Extends scope →
        (∀ v, m.preview scope = some v → m.render env = v) ∧
        ((∀ n ∈ m.names, (scope.get? n).isSome) →
          (∀ c ∈ m.conditions, (Static.condition scope c).isSome) →
          m.preview scope = some (m.render env)) := by
  refine ⟨evaluate?_template_append env hn hc ht, fun scope he => ⟨?_, ?_⟩⟩
  case refine_1 => exact fun v => render_of_preview he
  case refine_2 =>
    intro hknown hdecided
    have ⟨v, hv⟩ := Option.isSome_iff_exists.mp (isSome_preview hknown hdecided)
    rw [hv, render_of_preview he hv]

-- A price whose `$` meets a substitution, and nested conditionals with quotes and brackets.
theorem evaluate?_template_price :
    let m : Markup := .text ['`', '$'] (.name ['x'] (.conditional "f(')')".toList
      (.text ['"', '\n'] (.conditional ['y'] (.name ['x'] .empty) .empty .empty)) .empty .empty))
    let env : Environment := ⟨fun _ => ['7'], fun _ => true⟩
    (∀ n ∈ m.names, Identifier.IsName n) ∧ (∀ c ∈ m.conditions, Delimited c) ∧ m.textsApart ∧
      env.evaluate? (m.template ++ [';']) = some ("`$7\"\n7".toList, [';']) := by
  intro m env
  have hn : ∀ n ∈ m.names, Identifier.IsName n := by decide
  have hc : ∀ c ∈ m.conditions, Delimited c := by decide
  have ht : m.textsApart := by decide
  exact ⟨hn, hc, ht, (evaluate?_template hn hc ht env).left [';']⟩

end Markup
end Componentry
