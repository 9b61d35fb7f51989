import Componentry.Proofs.Cursor.Span
import Componentry.Proofs.Markup.Directive

/-!
The cursor in front of directives: whether it is in code, whether an `@if` starts there, and where a
group of markup ends.
-/
namespace Componentry.Cursor

open Code Context

def isCodeFrom (t : Text) (target i : Nat) : Checked Bool :=
  if _ : i < target ∧ i < t.size then do
    match ← literalEnd t i with
    | some n =>
      if target < n then return false
      else
        let ⟨_⟩ ← onward t i n
        isCodeFrom t target n
    | none => isCodeFrom t target (i + 1)
  else return true
termination_by t.size - i

def isCodeAt (t : Text) (target : Nat) : Checked Bool :=
  isCodeFrom t target 0

def conditionAt (t : Text) (i : Nat) : Checked (Option Nat) :=
  match t.code? i with
  | none => return none
  | some c =>
    if c = '@' then do
      let rest ← sliceFrom t (i + 1)
      if ['i', 'f'].isPrefixOf rest && !(t.code? (i + 3)).any Identifier.isPart then
        let paren ← skipSpace t (i + 3)
        return if t.code? paren = some '(' then some paren else none
      else return none
    else return none

-- The first `}` outside all groups that is accepted. Only such braces are offered.
def closeFrom (t : Text) (accept : Nat → Checked Bool) (depth i : Nat) : Checked (Option Nat) :=
  if _ : i < t.size then do
    match ← conditionAt t i with
    | some paren =>
      match ← closer t paren with
      | some n =>
        let ⟨_⟩ ← onward t i (n + 1)
        closeFrom t accept depth (n + 1)
      | none => return none
    | none =>
      let c ← index t i
      if c = '{' then closeFrom t accept (depth + 1) (i + 1)
      else if c = '}' then
        if ← (if depth = 0 then accept i else pure false) then return some i
        else closeFrom t accept (depth - 1) (i + 1)
      else closeFrom t accept depth (i + 1)
  else return none
termination_by t.size - i

def closeAt (t : Text) (i : Nat) (accept : Nat → Checked Bool) : Checked (Option Nat) :=
  closeFrom t accept 0 i

section Literals

def isLiteral : Context → Bool
  | .line | .block | .star | .template | .dollar => true
  | .quoted quote => quote = '"' || quote = '\''
  | .group | .slash | .escape => false

def InLiteral (within : List Context) : Prop :=
  within.getLast?.any isLiteral

namespace InLiteral

variable {within outer : List Context} {ctx : Context} {c : Char} {t inside rest : Text}
  {depth k : Nat}

theorem selfContained (h : InLiteral within) : SelfContained within := by
  intro hs
  simp [InLiteral, hs, isLiteral] at h

theorem ne_nil (h : InLiteral within) : within ≠ [] := by
  rintro rfl
  simp [InLiteral] at h

theorem cons (h : InLiteral within) (ctx : Context) : InLiteral (ctx :: within) := by
  have ⟨c, more, he⟩ := List.exists_cons_of_ne_nil h.ne_nil
  subst he
  simpa [InLiteral] using h

theorem tail (h : InLiteral (ctx :: within)) (hn : within ≠ []) : InLiteral within := by
  have ⟨c, more, he⟩ := List.exists_cons_of_ne_nil hn
  subst he
  simpa [InLiteral] using h

theorem afterCode (h : InLiteral within) (c : Char) :
    Context.afterCode within c = [] ∨ InLiteral (Context.afterCode within c) := by
  have ⟨ctx, more, he⟩ := List.exists_cons_of_ne_nil h.ne_nil
  subst he
  unfold Context.afterCode
  repeat' split
  case isFalse.isFalse.isFalse.isFalse.isTrue =>
    by_cases hn : more = []
    case pos => exact .inl hn
    case neg => exact .inr (h.tail hn)
  case isFalse.isFalse.isFalse.isFalse.isFalse => exact .inr h
  all_goals exact .inr (h.cons _)

theorem after_cons (h : InLiteral outer) (hs : ctx ≠ .group ∧ ctx ≠ .slash) (c : Char) :
    InLiteral (Context.after (ctx :: outer) c) := by
  cases ctx <;> simp only [Context.after, Context.afterTemplate]
  case group => exact absurd rfl hs.left
  case slash => exact absurd rfl hs.right
  case escape => exact h
  all_goals
    split_ifs
    all_goals first | exact h | exact h.cons _

theorem after (h : InLiteral within) (c : Char) :
    Context.after within c = [] ∨ InLiteral (Context.after within c) := by
  have ⟨ctx, outer, he⟩ := List.exists_cons_of_ne_nil h.ne_nil
  subst he
  by_cases hg : ctx = .group
  case pos => exact hg ▸ (hg ▸ h).afterCode c
  by_cases hn : outer = []
  case pos =>
    have hctx : isLiteral ctx := by simpa [InLiteral, hn] using h
    subst hn
    cases ctx
    case group => exact absurd rfl hg
    case slash => simp [isLiteral] at hctx
    case escape => exact .inl rfl
    all_goals
      simp only [Context.after, Context.afterTemplate]
      split_ifs
      all_goals simp_all [InLiteral, isLiteral]
  case neg =>
    have ho := h.tail hn
    by_cases hs : ctx = .slash
    case neg => exact .inr (ho.after_cons ⟨hg, hs⟩ c)
    case pos =>
      subst hs
      simp only [Context.after]
      split_ifs
      · exact .inr (ho.cons _)
      · exact .inr (ho.cons _)
      · exact ho.afterCode c

theorem after_wide (h : InLiteral within) (hc : IsWide c) : Context.after within c ≠ [] := by
  have ⟨ctx, outer, he⟩ := List.exists_cons_of_ne_nil h.ne_nil
  subst he
  have hcode (w : List Context) : Context.afterCode w c = w := by
    simp [Context.afterCode, hc.ne, onlyAscii_isOpener _ hc, onlyAscii_isCloser _ hc]
  by_cases hn : outer = []
  case pos =>
    subst hn
    have hctx : isLiteral ctx := by simpa [InLiteral] using h
    cases ctx
    case quoted quote =>
      have hquote : quote = '"' ∨ quote = '\'' := by simpa [isLiteral] using hctx
      rcases hquote with rfl | rfl <;> simp [Context.after, hc.ne]
    all_goals simp_all [Context.after, Context.afterTemplate, hc.ne, isLiteral]
  case neg =>
    have ho := h.tail hn
    by_cases hs : ctx = .group ∨ ctx = .slash
    case neg => exact (ho.after_cons (not_or.mp hs) c).ne_nil
    case pos => rcases hs with rfl | rfl <;> simp [Context.after, hcode, hc.ne, hn]

theorem all_isGroup (h : InLiteral within) (outer : List Context) :
    (within ++ outer).all (· = .group) = false := by
  have ⟨before, ctx, he⟩ := (List.eq_nil_or_concat' within).resolve_left h.ne_nil
  subst he
  have hctx : ctx ≠ .group := by
    rintro rfl
    simp [InLiteral, isLiteral] at h
  simp [hctx]

theorem isCode_eq_false (h : InLiteral within) (outer : List Context) (c : Char) :
    isCode (within ++ outer) c = false := by
  have hall := h.all_isGroup outer
  have ⟨ctx, more, he⟩ := List.exists_cons_of_ne_nil h.ne_nil
  subst he
  cases ctx
  case slash =>
    have hn : more ≠ [] := by
      rintro rfl
      simp [InLiteral, isLiteral] at h
    rw [List.cons_append, isCode, (h.tail hn).all_isGroup outer, Bool.and_false]
  all_goals exact hall

theorem isWide_of_lt (hk : 0 < k) (h : k < c.utf8Size) : IsWide c := by
  by_contra hc
  rw [utf8Size_of_ascii (Nat.lt_of_not_le hc)] at h
  omega

theorem go_cons (h : InLiteral within) (outer : List Context) (t : Text) (k : Nat) :
    isCodeAt.go (within ++ outer) (c :: t) k =
      (decide (c.utf8Size ≤ k) && isCodeAt.go (Context.after within c ++ outer) t
        (k - c.utf8Size)) := by
  rw [isCodeAt.go, after_append outer h.selfContained h.ne_nil]
  split_ifs with hzero hlt
  · simp [h.isCode_eq_false, hzero, Nat.not_le_of_lt c.utf8Size_pos]
  · have hwide := isWide_of_lt (Nat.pos_of_ne_zero hzero) hlt
    have hafter := (h.after c).resolve_left (h.after_wide hwide)
    simp [hafter.all_isGroup, Nat.not_le_of_lt hlt, -List.all_append]
  · simp [Nat.le_of_not_lt hlt]

theorem le_and_le_sub (n m k : Nat) (b : Bool) :
    (decide (n ≤ k) && (decide (m ≤ k - n) && b)) = (decide (n + m ≤ k) && b) := by
  rw [← Bool.and_assoc, ← Bool.decide_and]
  congr 2
  exact propext ⟨by omega, by omega⟩

theorem go_of_leave (h : InLiteral within) (hl : leave within t = some (inside, rest)) (k : Nat) :
    isCodeAt.go (within ++ outer) t k =
      (decide (inside.size ≤ k) && isCodeAt.go outer rest (k - inside.size)) := by
  fun_induction leave within t generalizing inside k
  case case1 => exact absurd rfl h.ne_nil
  case case2 => simp at hl
  case case3 ctx more c t ih =>
    obtain ⟨⟨later, after⟩, hl, he⟩ := Option.map_eq_some_iff.mp hl
    cases he
    rw [h.go_cons, Text.size_cons, ← Nat.sub_sub, ← le_and_le_sub]
    rcases h.after c with hnil | hafter
    case inl =>
      rw [hnil, leave] at hl
      cases hl
      simp [hnil]
    case inr => rw [ih hafter hl]

theorem go_of_leave_none (h : InLiteral within) (hl : leave within t = none) (k : Nat) :
    isCodeAt.go (within ++ outer) t k = decide (t.size ≤ k) := by
  fun_induction leave within t generalizing k
  case case1 => exact absurd rfl h.ne_nil
  case case2 => simp [isCodeAt.go]
  case case3 ctx more c t ih =>
    rw [Option.map_eq_none_iff] at hl
    rcases h.after c with hnil | hafter
    case inl => simp [hnil, leave] at hl
    case inr =>
      have hsize := le_and_le_sub c.utf8Size (Text.size t) k true
      rw [h.go_cons, ih hafter hl, Text.size_cons]
      simpa using hsize

end InLiteral

variable {t literal rest : Text} {depth : Nat}

theorem InLiteral.of_opens {opening : Text} {ctx : Context} (h : Opens opening ctx) :
    InLiteral [ctx] := by
  cases h <;> simp_all [InLiteral, isLiteral]

theorem go_zero {within : List Context} (h : IsOutside within depth t) :
    isCodeAt.go within t 0 = true := by
  cases t
  case nil => rfl
  case cons c t =>
    rcases h with rfl | ⟨rfl, hline, hblock⟩
    case inl =>
      cases depth <;> simp [isCodeAt.go, isCode, List.replicate_succ]
    case inr => simp_all [isCodeAt.go, isCode]

theorem go_ascii {within : List Context} {c : Char} (hx : c.toNat < 128) (t : Text) (k : Nat) :
    isCodeAt.go within (c :: t) (k + 1) = isCodeAt.go (Context.after within c) t k := by
  simp [isCodeAt.go, utf8Size_of_ascii hx]

theorem go_opening {within : List Context} {opening u : Text} {ctx : Context}
    (ho : Opens opening ctx)
    (h : IsOutside within depth (opening ++ u)) (k : Nat) :
    isCodeAt.go within (opening ++ u) (k + 1) =
      (decide (opening.size ≤ k + 1) &&
        isCodeAt.go ([ctx] ++ List.replicate depth .group) u (k + 1 - opening.size)) := by
  have hcomment {c : Char} {ctx : Context} (hc : c = '/' ∧ ctx = .line ∨ c = '*' ∧ ctx = .block)
      (h : IsOutside within depth ('/' :: c :: u)) : isCodeAt.go within ('/' :: c :: u) (k + 1) =
        (decide (2 ≤ k + 1) && isCodeAt.go (ctx :: List.replicate depth .group) u (k + 1 - 2)) := by
    rw [go_ascii (by decide), h.after_eq]
    rcases hc with ⟨rfl, rfl⟩ | ⟨rfl, rfl⟩
    all_goals
      cases k
      case zero => rfl
      case succ k => exact (go_ascii (by decide) u k).trans (by simp [Context.after, afterCode])
  cases ho
  case line => exact hcomment (.inl ⟨rfl, rfl⟩) h
  case block => exact hcomment (.inr ⟨rfl, rfl⟩) h
  case quoted quote hq =>
    rcases hq with rfl | rfl
    all_goals
      refine (go_ascii (by decide) u k).trans ?_
      rw [IsOutside.after_eq h]
      simp [afterCode, utf8Size_of_ascii]
  case template =>
    refine (go_ascii (by decide) u k).trans ?_
    rw [IsOutside.after_eq h]
    simp [afterCode, utf8Size_of_ascii]

theorem go_literal {within : List Context} {k : Nat} (h : IsOutside within depth t)
    (hl : literal? t = some (literal, rest)) (hk : 0 < k) : isCodeAt.go within t k =
      (decide (literal.size ≤ k) && isCodeAt.go (List.replicate depth .group) rest
        (k - literal.size)) := by
  obtain ⟨k, rfl⟩ := Nat.exists_eq_add_one.mpr hk
  obtain ⟨opening, ctx, u, ho, rfl, ⟨inside, hleave, rfl⟩ | ⟨hleave, rfl, rfl⟩⟩ := exists_opens hl
  case inl =>
    rw [go_opening ho h, (InLiteral.of_opens ho).go_of_leave hleave, Text.size_append,
      ← Nat.sub_sub, InLiteral.le_and_le_sub]
  case inr =>
    have hsize := InLiteral.le_and_le_sub opening.size u.size (k + 1) true
    rw [go_opening ho h, (InLiteral.of_opens ho).go_of_leave_none hleave, Text.size_append]
    simpa [isCodeAt.go] using hsize

theorem go_wide {within : List Context} {c : Char} (hx : IsWide c)
    (h : IsOutside within depth (c :: t))
    {k : Nat} (hk : 0 < k) :
    isCodeAt.go within (c :: t) k = isCodeAt.go (Context.after within c) t (k - c.utf8Size) := by
  have hstep := h.step (literal?_of_wide hx)
  rw [isCodeAt.go, if_neg (Nat.ne_of_gt hk)]
  split_ifs with hlt
  · have hafter : Context.after within c = List.replicate depth .group := by
      rw [h.after_eq]
      simp [afterCode, hx.ne, onlyAscii_isOpener _ hx, onlyAscii_isCloser _ hx]
    rw [Nat.sub_eq_zero_of_le (Nat.le_of_lt hlt), go_zero hstep, hafter]
    simp
  · rfl

-- The cursor passes over literals and stops before the offset or in the literal that holds it.
-- Inside a character it is as good as after it.
theorem isCodeFrom_eq {within : List Context} (target i : Nat)
    (h : IsOutside within depth (t.dropBytes i)) :
    isCodeFrom t target i =
      .ok (isCodeAt.go within (t.dropBytes i) (target - t.offset (t.dropBytes i))) := by
  induction hn : t.size - i using Nat.strongRecOn generalizing i within depth
  case ind n ih =>
  rw [isCodeFrom]
  by_cases hsize : i < t.size
  case neg =>
    rw [dif_neg (fun hlt => hsize hlt.right), Text.dropBytes_of_size_le (Nat.le_of_not_lt hsize)]
    rfl
  by_cases htarget : i < target
  case neg =>
    have hle := Text.le_offset_dropBytes hsize
    rw [dif_neg (fun hlt => htarget hlt.left), Nat.sub_eq_zero_of_le (by omega),
      go_zero h, pure_eq_ok]
  rw [dif_pos ⟨htarget, hsize⟩, literalEnd_eq, ok_bind]
  cases t.place i
  case past hi _ _ => exact absurd hsize (Nat.not_lt_of_le hi)
  case inside hs _ _ hr =>
    have hnone : literalEnd? t i = none := by simp [literalEnd?, hs]
    rw [hnone, ← hr]
    exact ih _ (by omega) (i + 1) (hr ▸ h) rfl
  case wide c d rest hx hs hc hd =>
    have hnone : literal? (c :: rest) = none := literal?_of_wide hx
    rw [Text.dropBytes_of_suffix? hs] at h ⊢
    have hih := ih _ (by omega) (i + 1) (Text.dropBytes_next hs ▸ h.step hnone) rfl
    rw [Text.dropBytes_next hs, Text.offset_of_suffix? (Text.suffix?_next hs)] at hih
    rw [literalEnd?_eq hs, hnone, Text.offset_of_suffix? hs, go_wide hx h (by omega), Nat.sub_sub]
    exact hih
  case ascii c rest hx hs hc =>
    rw [Text.dropBytes_of_suffix? hs] at h ⊢
    rw [literalEnd?_eq hs, Text.offset_of_suffix? hs]
    cases hl : literal? (c :: rest)
    case none =>
      have hnext := Text.suffix?_succ hx hs
      have hih := ih _ (by omega) (i + 1) (Text.dropBytes_next hs ▸ h.step hl) rfl
      rw [Text.dropBytes_next hs, Text.offset_of_suffix? hnext] at hih
      obtain ⟨k, hk⟩ := Nat.exists_eq_add_of_lt htarget
      rw [show target - i = k + 1 by omega, go_ascii hx, show k = target - (i + 1) by omega]
      exact hih
    case some p =>
      obtain ⟨literal, after⟩ := p
      obtain ⟨hlt, hafter⟩ := literal_next hs hl
      have hle := Text.add_size_of_suffix? hafter
      rw [go_literal h hl (by omega), Nat.sub_sub]
      simp only [Option.map_some]
      split_ifs with hin
      · simp [show ¬literal.size ≤ target - i by omega]
      · have hih := ih _ (by omega) (i + literal.size)
          (.inl rfl : IsOutside (List.replicate depth .group) depth _) rfl
        rw [Text.dropBytes_of_suffix? hafter, Text.offset_of_suffix? hafter] at hih
        rw [onward_eq ⟨hlt, Nat.le.intro hle⟩, ok_bind, hih]
        simp [show literal.size ≤ target - i by omega]

theorem isCodeAt_eq (t : Text) (i : Nat) : isCodeAt t i = .ok (Code.isCodeAt t i) := by
  have hdrop := Text.dropBytes_of_suffix? t.suffix?_zero
  have hoffset := Text.offset_of_suffix? t.suffix?_zero
  have h := isCodeFrom_eq i 0 (.inl rfl : IsOutside (List.replicate 0 .group) 0 (t.dropBytes 0))
  rwa [hdrop, hoffset] at h

end Literals

section Conditions

variable {t u rest : Text} {i : Nat}

open Markup

theorem condition?_of_if (u : Text) : condition? ('@' :: 'i' :: 'f' :: u) =
    if !Identifier.continues u && (Text.skipSpace u).head? = some '(' then some (Text.skipSpace u)
    else none := by
  rw [condition?]
  split
  case isTrue h => simp [h]
  case isFalse h =>
    split
    case h_1 hs => simp [h, hs]
    case h_2 hs =>
      have hn : (Text.skipSpace u).head? ≠ some '(' := by
        intro hh
        obtain ⟨rest, he⟩ := List.head?_eq_some_iff.mp hh
        exact hs rest he
      simp [hn]

theorem suffix?_skipSpace (h : t.suffix? i = some u) :
    t.suffix? (skipSpaceAt t i) = some (Text.skipSpace u) := by
  rw [skipSpaceAt, h]
  apply Text.suffix?_add_size
  rw [h, Text.skipSpace, List.takeWhile_append_dropWhile]

theorem le_skipSpaceAt (t : Text) (i : Nat) : i ≤ skipSpaceAt t i := by
  unfold skipSpaceAt
  split <;> omega

theorem conditionAt?_eq (h : t.suffix? i = some u) :
    conditionAt? t i = (condition? u).map t.offset := by
  simp only [conditionAt?, h, Option.bind_eq_bind, Option.bind_some]
  cases hp : condition? u
  case none => rfl
  case some paren =>
    obtain ⟨space, rest, rfl, _, rfl⟩ := condition?_eq_some_iff.mp hp
    have hsize := Text.add_size_of_suffix? h
    have hle : Text.size ('(' :: rest) ≤ Text.size
        ('@' :: 'i' :: 'f' :: (space ++ '(' :: rest)) := by
      simp only [Text.size_cons, Text.size_append]
      omega
    simp only [Option.bind_some, Option.map_some, Text.offset]
    congr 1
    omega

theorem suffix?_paren {paren : Text} (hs : t.suffix? i = some u) (hp : condition? u = some paren) :
    ∃ v, paren = '(' :: v ∧ i < t.offset paren ∧ t.suffix? (t.offset paren) = some paren := by
  obtain ⟨space, v, rfl, _, rfl⟩ := condition?_eq_some_iff.mp hp
  have hparen := Text.suffix?_add_size (s := '@' :: 'i' :: 'f' :: space) hs
  have hpos := '@'.utf8Size_pos
  rw [Text.offset_of_suffix? hparen, Text.size_cons] at *
  exact ⟨v, rfl, by omega, hparen⟩

theorem conditionAt_eq (t : Text) (i : Nat) : conditionAt t i = .ok (conditionAt? t i) := by
  rw [conditionAt]
  cases t.place i
  case past hi hc _ =>
    rcases Text.suffix?_of_size_le hi with hs | hs
    all_goals simp [hc, conditionAt?, hs, condition?]
  case inside hs hc hd _ => simp [hc, hd.ne, conditionAt?, hs]
  case wide hx hs hc hd => simp [hc, hd.ne, conditionAt?, hs, condition?_eq_none (hx.ne _)]
  case ascii c rest hx hs hc =>
    rw [hc, conditionAt?_eq hs]
    dsimp only
    split_ifs with hat
    case neg => rw [condition?_eq_none hat]; rfl
    case pos =>
      subst hat
      have hnext := Text.suffix?_succ hx hs
      rw [sliceFrom_eq hnext, ok_bind]
      by_cases hif : ['i', 'f'].isPrefixOf rest
      case neg =>
        have hnone : condition? ('@' :: rest) = none := by
          rw [Option.eq_none_iff_forall_ne_some]
          intro paren hp
          obtain ⟨space, u, he, _⟩ := condition?_eq_some_iff.mp hp
          cases he
          exact hif rfl
        simp [hif, hnone]
      case pos =>
        obtain ⟨u, rfl⟩ := List.isPrefixOf_iff_prefix.mp hif
        have hu : t.suffix? (i + 3) = some u := Text.suffix?_add_size (s := ['@', 'i', 'f']) hs
        have hparen := suffix?_skipSpace hu
        have hopen := Text.code?_eq_some_iff_head? hparen (by decide : '('.toNat < 128)
        rw [hif, Text.any_code? onlyAscii_isPart hu, ← Identifier.continues_eq_any, skipSpace_eq,
          List.cons_append, List.cons_append, List.nil_append, condition?_of_if]
        cases Identifier.continues u
        case true => rfl
        case false =>
          have hoffset := Text.offset_of_suffix? hparen
          by_cases hh : (Text.skipSpace u).head? = some '('
          case pos => simp [hh, hopen.mpr hh, hoffset]
          case neg => simp [hh, hopen]

end Conditions

section Groups

variable {t : Text} {test : Text → Bool} {accept : Nat → Checked Bool}

open Markup

theorem closeFrom_eq (depth i : Nat)
    (h : ∀ j rest, i ≤ j → t.suffix? j = some ('}' :: rest) → accept j = .ok (test ('}' :: rest))) :
    closeFrom t accept depth i = .ok ((close? test depth (t.dropBytes i)).map t.offset) := by
  induction hn : t.size - i using Nat.strongRecOn generalizing i depth
  case ind n ih =>
  -- A brace that is offered later is one that was to be offered from here on.
  have hnext (j depth : Nat) (hj : i < j) (hi : i < t.size) : closeFrom t accept depth j =
      .ok ((close? test depth (t.dropBytes j)).map t.offset) :=
    ih _ (by omega) depth j (fun k rest hk => h k rest (by omega)) rfl
  rw [closeFrom]
  cases t.place i
  case past hi _ hr =>
    rw [dif_neg (Nat.not_lt_of_le hi), hr, close?]
    rfl
  case inside hi hs hc hd hr =>
    have hnone : conditionAt? t i = none := by simp [conditionAt?, hs]
    rw [dif_pos hi, conditionAt_eq, hnone, ok_bind, ← hr, ← hnext (i + 1) depth (by omega) hi]
    simp [index_eq hc, hd.ne]
  case wide c d rest hx hs hc hd =>
    have hi := Text.lt_size_of_suffix? hs
    have hnone : condition? (c :: rest) = none := condition?_eq_none (hx.ne (by decide))
    rw [dif_pos hi, conditionAt_eq, conditionAt?_eq hs, hnone, Text.dropBytes_of_suffix? hs,
      close?_cons, hnone]
    simp [index_eq hc, hd.ne, hx.ne, hnext (i + 1) depth (by omega) hi, Text.dropBytes_next hs]
  case ascii c rest hx hs hc =>
    have hi := Text.lt_size_of_suffix? hs
    rw [dif_pos hi, conditionAt_eq, conditionAt?_eq hs, ok_bind, Text.dropBytes_of_suffix? hs,
      close?_cons]
    cases hp : condition? (c :: rest)
    case none =>
      simp only [Option.map_none, index_eq hc, ok_bind, hnext (i + 1) _ (by omega) hi,
        Text.dropBytes_next hs]
      by_cases hopen : c = '{'
      case pos => simp [hopen]
      by_cases hclose : c = '}'
      case neg => simp [hopen, hclose]
      case pos =>
        subst hclose
        have hoffered : (if depth = 0 then accept i else pure false) =
            .ok (decide (depth = 0) && test ('}' :: rest)) := by
          split_ifs with hd
          · simp [hd, h i rest (Nat.le_refl i) hs]
          · simp [hd]
        rw [if_neg hopen, if_neg hopen, if_pos rfl, if_pos rfl, hoffered, ok_bind]
        split_ifs with htest
        · rw [Option.map_some, Text.offset_of_suffix? hs, pure_eq_ok]
        · rfl
    case some paren =>
      obtain ⟨u, rfl, hlt, hparen⟩ := suffix?_paren hs hp
      have hbind : ((group? ('(' :: u)).bind fun p => close? test depth p.2) =
          (past [.group] u).bind (close? test depth) := by
        rw [past_group (by decide : isOpener '(') u, Option.bind_map]
        rfl
      simp only [Option.map_some, closer_eq, ok_bind, hbind,
        closer?_of_opener (by decide) hparen]
      cases hpast : past [.group] u
      case none => rfl
      case some after =>
        obtain ⟨n, hn, hlt', hle, hafter⟩ := group_next (by decide) hparen hpast
        simp only [Option.map_some, Option.bind_some, hn]
        rw [onward_eq ⟨by omega, hle⟩, ok_bind, hnext _ _ (by omega) hi,
          Text.dropBytes_of_suffix? hafter]

theorem closeAt_eq (i : Nat)
    (h : ∀ j rest, i ≤ j → t.suffix? j = some ('}' :: rest) → accept j = .ok (test ('}' :: rest))) :
    closeAt t i accept = .ok ((close? test 0 (t.dropBytes i)).map t.offset) :=
  closeFrom_eq 0 i h

end Groups

section Bounds

variable {t : Text} {i n : Nat}

open Markup

theorem code?_conditionAt? (h : conditionAt? t i = some n) : i < n ∧ t.code? n = some '(' := by
  cases hs : t.suffix? i
  case none => simp [conditionAt?, hs] at h
  case some u =>
    rw [conditionAt?_eq hs] at h
    obtain ⟨paren, hp, rfl⟩ := Option.map_eq_some_iff.mp h
    obtain ⟨v, rfl, hlt, hparen⟩ := suffix?_paren hs hp
    exact ⟨hlt, (Text.code?_eq_some_iff (by decide)).mpr ⟨v, hparen⟩⟩

theorem code?_closeAt? {accept : Nat → Bool} (h : closeAt? t i accept = some n) :
    t.code? n = some '}' := by
  obtain ⟨brace, hb, hn⟩ := Option.bind_eq_some_iff.mp h
  cases hn
  obtain ⟨rest, rfl⟩ := exists_brace hb
  have hs : '}' :: rest <:+ t := (close?_accepts hb).right.trans (t.dropBytes_suffix i)
  exact (Text.code?_eq_some_iff (by decide)).mpr ⟨rest, Text.suffix?_offset hs⟩

end Bounds
end Componentry.Cursor
