import Componentry.Json.Token
import Componentry.Markup.Template
import Componentry.Proofs.Code.Locality
import Componentry.Proofs.Json.Quoted
import Componentry.Proofs.Markup.Structure
import Componentry.Proofs.Text.Runs

/-!
What the template of markup evaluates to. The template is read from its text, by the rules of the
host language for the few forms that occur in it, and not with the markup at hand.
-/
namespace Componentry

-- What the names and the conditions of an expression evaluate to.
structure Environment where
  value : Text → Text
  holds : Text → Bool

namespace Environment

open Code

variable (env : Environment)

def string? : Text → Option (Text × Text)
  | '"' :: t => do
    let (spelling, rest) ← Json.Token.string? t
    return (← Json.denoted? spelling, rest)
  | _ => none

def call? (branch? : Text → Option (Text × Text)) (t : Text) : Option (Text × Text) := do
  let t ← t.stripStart? "(() => \x7b if (".toList
  let (condition, t) ← group? ('(' :: t)
  let t ← t.stripStart? " \x7b return ".toList
  let (yes, t) ← branch? t
  let t ← t.stripStart? "; \x7d return ".toList
  let (no, t) ← branch? t
  let t ← t.stripStart? "; \x7d)()".toList
  return (if env.holds condition then yes else no, t)

def operand? (branch? : Text → Option (Text × Text)) : Text → Option (Text × Text)
  | '"' :: t => string? ('"' :: t)
  | '(' :: t =>
    match Identifier.split t with
    | (c :: name, ')' :: rest) => some (env.value (c :: name), rest)
    | _ => env.call? branch? ('(' :: t)
  | _ => none

-- Operands with ` + ` between them, which are joined. Each takes up at least one character, so that
-- neither their number nor their depth goes beyond `bound`.
def sum? : (bound : Nat) → Text → Option (Text × Text)
  | 0, _ => none
  | bound + 1, t => do
    let (value, t) ← env.operand? (sum? bound) t
    match t.stripStart? " + ".toList with
    | none => return (value, t)
    | some t =>
      let (others, t) ← sum? bound t
      return (value ++ others, t)

def substitution? (bound : Nat) (t : Text) : Option (Text × Text) :=
  let inside? :=
    match Identifier.split t with
    | (c :: name, rest) => some (env.value (c :: name), rest)
    | _ => env.call? (env.sum? bound) t
  match inside? with
  | some (value, '}' :: rest) => some (value, rest)
  | _ => none

def chunk? (bound : Nat) : Text → Option (Text × Text)
  | '$' :: '{' :: t => env.substitution? bound t
  | '\\' :: '\\' :: t => some (['\\'], t)
  | '\\' :: '`' :: t => some (['`'], t)
  | '\\' :: '$' :: t => some (['$'], t)
  | c :: t => some ([c], t)
  | [] => none

def chunks? : (bound : Nat) → Text → Option (Text × Text)
  | bound + 1, c :: t =>
    if c = '`' then some ([], t)
    else do
      let (value, t) ← env.chunk? bound (c :: t)
      let (others, t) ← chunks? bound t
      return (value ++ others, t)
  | _, _ => none

def evaluate? : Text → Option (Text × Text)
  | '`' :: t => env.chunks? t.length t
  | _ => none

theorem string?_quoted (content rest : Text) :
    string? (content.quoted ++ rest) = some (content, rest) := by
  simp [string?, Text.quoted, Json.string?_quoted, Json.denoted?_quoted]

-- Whatever reads the branches, as long as it reads these two.
theorem call?_choice {branch? : Text → Option (Text × Text)} {condition yes no vyes vno : Text}
    (hc : Delimited condition)
    (hyes : ∀ t, t.head? = some ';' → branch? (yes ++ t) = some (vyes, t))
    (hno : ∀ t, t.head? = some ';' → branch? (no ++ t) = some (vno, t)) (rest : Text) :
    env.call? branch? (Markup.choice condition yes no ++ rest) =
      some (if env.holds condition then vyes else vno, rest) := by
  have hg := hc.group?_eq
  simp only [List.cons_append] at hg
  rw [Markup.choice_append]
  unfold call?
  simp only [Text.stripStart?_append, Option.bind_eq_bind, Option.bind_some, hg, Option.pure_def]
  rw [hyes _ (by simp)]
  simp only [Text.stripStart?_append, Option.bind_some]
  rw [hno _ (by simp)]
  simp only [Text.stripStart?_append, Option.bind_some]

-- An operand that is read with a given value, whatever follows it.
def Spells (operand v : Text) : Prop :=
  ∀ bound rest, operand.length ≤ bound →
    env.operand? (env.sum? bound) (operand ++ rest) = some (v, rest)

inductive SpellsAll : List Text → Text → Prop
  | nil : SpellsAll [] []
  | cons {operand v : Text} {operands : List Text} {w : Text} :
    env.Spells operand v → SpellsAll operands w → SpellsAll (operand :: operands) (v ++ w)

def SpellsSum (sum v : Text) : Prop :=
  ∀ bound rest, sum.length < bound → rest.head? = some ';' →
    env.sum? bound (sum ++ rest) = some (v, rest)

def SpellsChunks (t v rest : Text) : Prop :=
  ∀ bound, t.length ≤ bound → env.chunks? bound t = some (v, rest)

variable {env}

namespace Spells

theorem quoted (content : Text) : env.Spells content.quoted content := by
  intro bound rest _
  exact string?_quoted content rest

theorem name {identifier : Text} (h : Identifier.IsName identifier) :
    env.Spells ('(' :: identifier ++ [')']) (env.value identifier) := by
  intro bound rest _
  have ⟨c, t, he, _⟩ := h.exists_cons
  have hs : Identifier.split (identifier ++ ')' :: rest) = (identifier, ')' :: rest) :=
    h.split_append rfl
  rw [List.append_assoc, List.cons_append, List.singleton_append, operand?, hs, he]
  rfl

theorem choice {condition yes no vyes vno : Text} (hc : Delimited condition)
    (hyes : env.SpellsSum yes vyes) (hno : env.SpellsSum no vno) :
    env.Spells (Markup.choice condition yes no) (if env.holds condition then vyes else vno) := by
  intro bound rest hb
  have ⟨hly, hln⟩ := Markup.length_branches_lt_choice condition yes no
  have hcall := env.call?_choice hc (hyes bound · (by omega)) (hno bound · (by omega)) rest
  -- The parenthesis at the start is not that of a name, because another one follows.
  have hopen : "(() => \x7b if (".toList = '(' :: "() => \x7b if (".toList := rfl
  rw [← hcall, Markup.choice_append, hopen, List.cons_append, operand?]
  rfl

end Spells

namespace SpellsSum

theorem stripStart?_plus {t : Text} (h : t.head? = some ';') :
    t.stripStart? " + ".toList = none := by
  cases t
  case nil => simp at h
  case cons c t =>
    simp only [List.head?_cons, Option.some.injEq] at h
    simp [Text.stripStart?, h]

theorem joinWith {operands : List Text} {v : Text} (h : env.SpellsAll operands v)
    (hn : operands ≠ []) : env.SpellsSum (Text.joinWith " + ".toList operands) v := by
  induction h
  case nil => exact absurd rfl hn
  case cons operand v operands w hv hw ih =>
    intro bound rest hb hr
    have ⟨less, hless⟩ := Nat.exists_eq_succ_of_ne_zero (Nat.ne_zero_of_lt hb)
    subst hless
    unfold sum?
    cases operands
    case nil =>
      cases hw
      simp only [Text.joinWith] at hb ⊢
      rw [hv less rest (by omega), Option.bind_eq_bind, Option.bind_some]
      simp only [stripStart?_plus hr, List.append_nil]
      rfl
    case cons next more =>
      have hplus : " + ".toList.length = 3 := rfl
      simp only [Text.joinWith, List.length_append, hplus] at hb
      simp only [Text.joinWith, List.append_assoc]
      rw [hv less _ (by omega), Option.bind_eq_bind, Option.bind_some]
      simp only [Text.stripStart?_append]
      rw [ih (by simp) less rest (by omega) hr]
      rfl

-- The empty string that a sum may start with adds nothing to its value.
theorem sum {operands : List Text} {v : Text} (h : env.SpellsAll operands v) :
    env.SpellsSum (Markup.sum operands) v := by
  have hempty : env.Spells ['"', '"'] [] := .quoted []
  cases h
  case nil => exact joinWith (.cons hempty .nil) (by simp)
  case cons operand v operands w hv hw =>
    simp only [Markup.sum]
    split
    · exact joinWith (.cons hv hw) (by simp)
    · have hall : env.SpellsAll _ ([] ++ (v ++ w)) := .cons hempty (.cons hv hw)
      exact joinWith hall (by simp)

end SpellsSum

namespace SpellsChunks

theorem close (rest : Text) : env.SpellsChunks ('`' :: rest) [] rest := by
  intro bound hb
  cases bound
  case zero => simp at hb
  case succ => rfl

theorem chunk {c : Char} {t v u w rest : Text} (hc : c ≠ '`')
    (hv : ∀ bound, t.length ≤ bound → env.chunk? bound (c :: t) = some (v, u))
    (hl : u.length ≤ t.length) (h : env.SpellsChunks u w rest) :
    env.SpellsChunks (c :: t) (v ++ w) rest := by
  intro bound hb
  cases bound
  case zero => simp at hb
  case succ bound =>
    rw [List.length_cons] at hb
    rw [chunks?, if_neg hc, hv bound (by omega), Option.bind_eq_bind, Option.bind_some]
    simp only [h bound (by omega), Option.bind_some]
    rfl

variable {t v rest : Text}

theorem escaped {c : Char} (hc : c = '\\' ∨ c = '`' ∨ c = '$') (h : env.SpellsChunks t v rest) :
    env.SpellsChunks ('\\' :: c :: t) (c :: v) rest := by
  refine chunk (v := [c]) (by decide) (fun bound _ => ?_) (by simp) h
  rcases hc with rfl | rfl | rfl <;> rfl

theorem itself {c : Char} (hb : c ≠ '\\') (ht : c ≠ '`') (hd : c = '$' → t.head? ≠ some '{')
    (h : env.SpellsChunks t v rest) : env.SpellsChunks (c :: t) (c :: v) rest := by
  refine chunk (v := [c]) ht (fun bound _ => ?_) (Nat.le_refl _) h
  unfold chunk?
  split <;> simp_all

theorem escape {content : Text} (ht : t.head? ≠ some '{') (h : env.SpellsChunks t v rest) :
    env.SpellsChunks (Markup.escape content ++ t) (content ++ v) rest := by
  induction content
  case nil => exact h
  case cons c content ih =>
    simp only [Markup.escape]
    split
    case isTrue hc =>
      simp only [Bool.or_eq_true, Bool.and_eq_true, decide_eq_true_eq] at hc
      exact .escaped (by grind) ih
    case isFalse hc =>
      simp only [Bool.or_eq_true, Bool.and_eq_true, decide_eq_true_eq, not_or, not_and] at hc
      obtain ⟨⟨hb, hbt⟩, hd⟩ := hc
      exact .itself hb hbt (fun he => Markup.head?_escape_append (hd he) ht) ih

theorem name {identifier : Text} (hn : Identifier.IsName identifier)
    (h : env.SpellsChunks t v rest) :
    env.SpellsChunks ('$' :: '{' :: (identifier ++ '}' :: t)) (env.value identifier ++ v) rest := by
  refine chunk (by decide) (fun bound _ => ?_) (by simp; omega) h
  have ⟨c, u, he, _⟩ := hn.exists_cons
  have hs : Identifier.split (identifier ++ '}' :: t) = (identifier, '}' :: t) :=
    hn.split_append rfl
  rw [chunk?, substitution?, hs, he]
  rfl

theorem choice {condition yes no vyes vno : Text} (hc : Delimited condition)
    (hyes : env.SpellsSum yes vyes) (hno : env.SpellsSum no vno) (h : env.SpellsChunks t v rest) :
    env.SpellsChunks ('$' :: '{' :: (Markup.choice condition yes no ++ '}' :: t))
      ((if env.holds condition then vyes else vno) ++ v) rest := by
  refine chunk (by decide) (fun bound hb => ?_) (by simp; omega) h
  have ⟨hly, hln⟩ := Markup.length_branches_lt_choice condition yes no
  simp only [List.length_cons, List.length_append] at hb
  have hcall := env.call?_choice hc (hyes bound · (by omega)) (hno bound · (by omega)) ('}' :: t)
  have hs : Identifier.split (Markup.choice condition yes no ++ '}' :: t) =
      ([], Markup.choice condition yes no ++ '}' :: t) := by
    rw [Markup.choice_append]
    rfl
  simp only [chunk?, substitution?, hs, hcall]

end SpellsChunks
end Environment

namespace Markup

open Code Environment

def render (env : Environment) : Markup → Text
  | .empty => []
  | .text content rest => content ++ rest.render env
  | .name identifier rest => env.value identifier ++ rest.render env
  | .conditional condition body alternate rest =>
    (if env.holds condition then body.render env else alternate.render env) ++ rest.render env

section Template

variable {m : Markup} (env : Environment)

theorem spellsAll_operands (hn : ∀ n ∈ m.names, Identifier.IsName n)
    (hc : ∀ c ∈ m.conditions, Delimited c) : env.SpellsAll m.operands (m.render env) := by
  induction m
  case empty => exact .nil
  case text content rest ih =>
    simp only [operands, render]
    split
    case isTrue h => simpa [h] using ih hn hc
    case isFalse => exact .cons (.quoted content) (ih hn hc)
  case name identifier rest ih =>
    have ⟨hname, hn⟩ := List.forall_mem_cons.mp hn
    exact .cons (.name hname) (ih hn hc)
  case conditional condition body alternate rest ihb iha ih =>
    simp only [names, List.forall_mem_append] at hn
    simp only [conditions, List.cons_append, List.forall_mem_cons, List.forall_mem_append] at hc
    have ⟨⟨hnb, hna⟩, hnr⟩ := hn
    have ⟨hc, ⟨hcb, hca⟩, hcr⟩ := hc
    exact .cons (.choice hc (.sum (ihb hnb hcb)) (.sum (iha hna hca))) (ih hnr hcr)

theorem spellsChunks_templateParts (hn : ∀ n ∈ m.names, Identifier.IsName n)
    (hc : ∀ c ∈ m.conditions, Delimited c) (ht : m.textsApart) (rest : Text) :
    env.SpellsChunks (m.templateParts ++ '`' :: rest) (m.render env) rest := by
  induction m
  case empty => exact .close rest
  case text content more ih =>
    simp only [textsApart, Bool.and_eq_true, Bool.not_eq_true'] at ht
    simp only [templateParts, render, List.append_assoc]
    exact .escape (head?_templateParts ht.left rest) (ih hn hc ht.right)
  case name identifier more ih =>
    obtain ⟨hname, hn⟩ := List.forall_mem_cons.mp hn
    simpa [templateParts, render] using SpellsChunks.name hname (ih hn hc ht)
  case conditional condition body alternate more _ _ ih =>
    simp only [names, List.forall_mem_append] at hn
    simp only [conditions, List.cons_append, List.forall_mem_cons, List.forall_mem_append] at hc
    obtain ⟨⟨hnb, hna⟩, hnr⟩ := hn
    obtain ⟨hc, ⟨hcb, hca⟩, hcr⟩ := hc
    have hbody := SpellsSum.sum (spellsAll_operands env hnb hcb)
    have halternate := SpellsSum.sum (spellsAll_operands env hna hca)
    simpa [templateParts, render] using SpellsChunks.choice hc hbody halternate (ih hnr hcr ht)

theorem evaluate?_template_append (hn : ∀ n ∈ m.names, Identifier.IsName n)
    (hc : ∀ c ∈ m.conditions, Delimited c) (ht : m.textsApart) (rest : Text) :
    env.evaluate? (m.template ++ rest) = some (m.render env, rest) := by
  have h := spellsChunks_templateParts env hn hc ht rest
  simpa [template, evaluate?] using h _ (Nat.le_refl _)

end Template

end Markup
end Componentry
