import Componentry.Component.Body
import Componentry.Component.Header
import Componentry.Proofs.Markup.Directive

/-!
Splitting the source of a component undoes writing it from its pieces: each piece is found again,
whatever strings, comments, brackets and directives are in it, and whatever follows the component.
-/
namespace Componentry

open Code

theorem isBlank_eq_false_of_isPart {c : Char} (h : Identifier.isPart c) : isBlank c = false := by
  by_cases hu : c = '_'
  case pos =>
    subst hu
    rfl
  case neg =>
    have hval : c.val.toNat = c.toNat := rfl
    have hrange : 48 ≤ c.toNat ∧ c.toNat ≤ 122 := by
      simp [Identifier.isPart, Char.isAlphanum, Char.isAlpha, Char.isUpper, Char.isLower,
        Char.isDigit, hu, UInt32.le_iff_toNat_le, hval] at h
      omega
    simp [isBlank]
    omega

theorem continues_blanks_append {s t : Text} (hs : ∀ c ∈ s, isBlank c)
    (ht : Identifier.continues t = false) : Identifier.continues (s ++ t) = false := by
  cases s
  case nil => exact ht
  case cons c s =>
    have hc : isBlank c := hs c (by simp)
    cases hp : Identifier.isPart c
    case false => exact hp
    case true => simp [isBlank_eq_false_of_isPart hp] at hc

namespace Header

theorem kind?_append (kind : Kind) (t : Text) : kind? (kind.keyword ++ t) = some (kind, t) := by
  cases kind
  case ephemeral => simp [kind?, Text.stripStart?_append]
  case persistent =>
    have hn : Text.stripStart? (Kind.persistent.keyword ++ t) Kind.ephemeral.keyword = none := rfl
    simp [kind?, Text.stripStart?_append, hn]

theorem declaration?_append {name w₁ w₂ w₃ : Text} (hn : Identifier.IsName name) (hw₁ : w₁ ≠ [])
    (hw₂ : w₂ ≠ []) (hb₁ : ∀ c ∈ w₁, isBlank c) (hb₂ : ∀ c ∈ w₂, isBlank c)
    (hb₃ : ∀ c ∈ w₃, isBlank c)
    (kind : Kind) (t : Text) :
    declaration? ("export".toList ++ (w₁ ++ (kind.keyword ++ (w₂ ++ (name ++ (w₃ ++ '(' :: t)))))) =
      some (kind, name, '(' :: t) := by
  have ⟨c, u, he, hc, _⟩ := hn.exists_cons
  have hkeyword (t : Text) : (kind.keyword ++ t).head?.any isBlank = false := by
    cases kind <;> rfl
  have hname (t : Text) : (name ++ t).head?.any isBlank = false := by
    simpa [he] using isBlank_eq_false_of_isPart (Identifier.isPart_of_isStart hc)
  have hsplit : Identifier.split (name ++ (w₃ ++ '(' :: t)) = (name, w₃ ++ '(' :: t) :=
    hn.split_append (continues_blanks_append hb₃ rfl)
  have htrim : Text.trimStart (w₃ ++ '(' :: t) = '(' :: t := Text.trimStart_append hb₃ rfl
  simp only [declaration?, Text.stripStart?_append, Option.bind_eq_bind, Option.bind_some,
    Text.skipBlanks?_append hb₁ hw₁ (hkeyword _), kind?_append,
    Text.skipBlanks?_append hb₂ hw₂ (hname _), hsplit, htrim]
  rw [he]
  rfl

theorem go_eq_some {source t : Text} {previous : Option Char} {header : Header}
    (h : here? source previous t = some header) : find?.go source previous t = some header := by
  cases t
  case nil => simp [here?, declaration?, Text.stripStart?] at h
  case cons c t => simp [find?.go, h]

end Header

namespace Body

theorem renderCall?_render {space : Text} (hs : ∀ c ∈ space, isSpace c) (t : Text) :
    renderCall? ("render".toList ++ (space ++ '(' :: t)) = some t := by
  have hc : Identifier.continues (space ++ '(' :: t) = false := Markup.continues_space_append hs rfl
  have hskip : Text.skipSpace (space ++ '(' :: t) = '(' :: t := Text.skipSpace_append hs rfl
  rw [renderCall?, Text.stripStart?_append]
  simp [hc, hskip]

-- A text that goes on after the word, and not only with space, shows whether a call starts.
theorem isSome_renderCall?_append {s : Text} (hlen : 6 < s.length)
    (hlast : ∃ c ∈ s.getLast?, isSpace c = false) (t : Text) :
    (renderCall? (s ++ t)).isSome = (renderCall? s).isSome := by
  have h6 : "render".toList.length = 6 := rfl
  simp only [renderCall?, Text.stripStart?_append_right (Nat.le_of_lt (h6 ▸ hlen)),
    Option.bind_eq_bind]
  cases hw : s.stripStart? "render".toList
  case none => rfl
  case some rest =>
    have hs := Text.stripStart?_eq_some_iff.mp hw
    have hne : rest ≠ [] := by
      intro he
      simp [hs, he] at hlen
    have ⟨c, u, hcu⟩ := List.exists_cons_of_ne_nil hne
    have hcont : Identifier.continues (rest ++ t) = Identifier.continues rest := by
      rw [hcu]
      rfl
    have hrest : ∃ c ∈ rest.getLast?, isSpace c = false := by
      have hget := List.getLast?_eq_some_getLast hne
      rw [hs, List.getLast?_append, hget] at hlast
      rw [hget]
      exact hlast
    have ⟨hskip, hn⟩ := Text.dropWhile_append_right hrest (t := t)
    have ⟨d, v, hdv⟩ := List.exists_cons_of_ne_nil hn
    simp only [Option.map_some, Option.bind_some, hcont, Text.skipSpace, hskip,
      hdv, List.cons_append]
    split
    · rfl
    · by_cases hd : d = '(' <;> simp [hd]

def AtTop (within : List Context) : Prop :=
  within = [] ∨ within = [.slash]

theorem scan_cons_eq_render_iff {previous : Option Char} {within : List Context} {c : Char}
    {t call inside : Text} : scan previous within (c :: t) = .render call inside ↔
      (AtTop within ∧ c ≠ '}' ∧ joinsWord previous = false ∧ renderCall? (c :: t) = some inside ∧
        c :: t = call) ∨
      ((AtTop within → c ≠ '}' ∧ ((renderCall? (c :: t)).isSome → joinsWord previous)) ∧
        scan (some c) (Context.after within c) t = .render call inside) := by
  rw [scan]
  by_cases htop : AtTop within
  case neg =>
    have hif : (decide (within = []) || decide (within = [.slash])) = false := by
      simpa [AtTop] using htop
    simp [hif, htop]
  case pos =>
    have hif : (decide (within = []) || decide (within = [.slash])) = true := by
      simpa [AtTop] using htop
    by_cases hc : c = '}'
    case pos => simp [hif, htop, hc]
    case neg =>
      cases renderCall? (c :: t)
      case none => simp [hif, htop, hc]
      case some rest =>
        cases joinsWord previous
        case true => simp [hif, htop, hc]
        case false => simp [hif, htop, hc, and_comm]

theorem length_call_le {previous : Option Char} {within : List Context} {t call inside : Text}
    (h : scan previous within t = .render call inside) : call.length ≤ t.length := by
  induction t generalizing previous within
  case nil => simp [scan] at h
  case cons c t ih =>
    rcases scan_cons_eq_render_iff.mp h with ⟨_, _, _, _, he⟩ | ⟨_, hscan⟩
    case inl => rw [he]
    case inr => exact Nat.le_succ_of_le (ih hscan)

-- What stops the reading is the word and the parenthesis, and the statements before it were passed
-- over without looking that far.
theorem scan_append {previous : Option Char} {within : List Context} {prelude : Text}
    (h : scan previous within (prelude ++ "render(".toList) = .render "render(".toList [])
    {space : Text} (hs : ∀ c ∈ space, isSpace c) (t : Text) :
    scan previous within (prelude ++ ("render".toList ++ (space ++ '(' :: t))) =
      .render ("render".toList ++ (space ++ '(' :: t)) t := by
  induction prelude generalizing previous within
  case nil =>
    rcases scan_cons_eq_render_iff.mp h with ⟨htop, _, hj, _, _⟩ | ⟨_, hscan⟩
    case inl =>
      exact scan_cons_eq_render_iff.mpr (.inl ⟨htop, by decide, hj, renderCall?_render hs t, rfl⟩)
    case inr => exact absurd (length_call_le hscan) (by decide)
  case cons c prelude ih =>
    rcases scan_cons_eq_render_iff.mp h with ⟨_, _, _, _, he⟩ | ⟨hgo, hscan⟩
    case inl =>
      have hlen := congrArg List.length he
      simp at hlen
    case inr =>
      have hcall (u : Text) : (renderCall? (c :: (prelude ++ ("render".toList ++ u)))).isSome =
          (renderCall? (c :: (prelude ++ "render".toList))).isSome := by
        have hlast : ∃ d ∈ (c :: (prelude ++ "render".toList)).getLast?, isSpace d = false := by
          rw [← List.cons_append, List.getLast?_append]
          exact ⟨'r', rfl, rfl⟩
        have := isSome_renderCall?_append (by simp) hlast u
        rwa [List.cons_append, List.append_assoc] at this
      refine scan_cons_eq_render_iff.mpr (.inr ⟨fun htop => ?_, ih hscan⟩)
      have ⟨hc, hj⟩ := hgo htop
      refine ⟨hc, fun hr => hj ?_⟩
      rw [List.append_eq, hcall] at hr
      exact (hcall ['(']).trans hr

theorem scan_congr {p q : Option Char} (h : joinsWord p = joinsWord q) (within : List Context)
    (t : Text) : scan p within t = scan q within t := by
  cases t
  case nil => rfl
  case cons c t => rw [scan, scan, h]

theorem argument?_append {markup before after : Text} (hb : ∀ c ∈ before, isBlank c)
    (ha : ∀ c ∈ after, isBlank c) (semicolon : Bool) :
    argument? (markup ++ ')' :: (before ++ (if semicolon then [';'] else []) ++ after)) =
      some markup := by
  have hb' : ∀ c ∈ before.reverse, isBlank c := fun c hc => hb c (List.mem_reverse.mp hc)
  have ha' : ∀ c ∈ after.reverse, isBlank c := fun c hc => ha c (List.mem_reverse.mp hc)
  have hparen : (before.reverse ++ ')' :: markup.reverse).dropWhile isBlank =
      ')' :: markup.reverse :=
    Text.dropWhile_append_run hb' rfl
  cases semicolon
  case true =>
    have hsemicolon : (after.reverse ++ ';' :: (before.reverse ++ ')' :: markup.reverse)).dropWhile
        isBlank = ';' :: (before.reverse ++ ')' :: markup.reverse) :=
      Text.dropWhile_append_run ha' rfl
    simp [argument?, hsemicolon, hparen]
  case false =>
    have hblank : ∀ c ∈ after.reverse ++ before.reverse, isBlank c :=
      List.forall_mem_append.mpr ⟨ha', hb'⟩
    have hskip : (after.reverse ++ (before.reverse ++ ')' :: markup.reverse)).dropWhile isBlank =
        ')' :: markup.reverse := by
      rw [← List.append_assoc]
      exact Text.dropWhile_append_run hblank rfl
    have hstay : (')' :: markup.reverse).dropWhile isBlank = ')' :: markup.reverse := rfl
    simp [argument?, hskip, hstay]

end Body

structure Layout where
  kind : Kind
  name : Text
  parameters : Text
  prelude : Text
  markup : Text
  -- Space after the word `export`, the kind, the name, the parameters and the word `render`.
  afterExport : Text
  afterKind : Text
  afterName : Text
  afterParameters : Text
  afterRender : Text
  -- What ends the call.
  beforeSemicolon : Text
  semicolon : Bool
  afterSemicolon : Text
  -- What follows the component.
  following : Text

namespace Layout

variable (c : Layout)

def declaration : Text :=
  "export".toList ++ (c.afterExport ++ (c.kind.keyword ++ (c.afterKind ++ (c.name ++ (c.afterName ++
    '(' :: (c.parameters ++ ')' :: (c.afterParameters ++ ['{'])))))))

def ending : Text :=
  c.beforeSemicolon ++ (if c.semicolon then [';'] else []) ++ c.afterSemicolon

def call : Text :=
  "render".toList ++ (c.afterRender ++ '(' :: (c.markup ++ ')' :: (c.ending ++ '}' :: c.following)))

def source : Text :=
  c.declaration ++ (c.prelude ++ c.call)

-- Each piece by itself ends where the next one is to start.
structure IsWritten : Prop where
  name : Identifier.IsName c.name
  afterExport : c.afterExport ≠ [] ∧ ∀ x ∈ c.afterExport, isSpace x
  afterKind : c.afterKind ≠ [] ∧ ∀ x ∈ c.afterKind, isSpace x
  afterName : ∀ x ∈ c.afterName, isSpace x
  afterParameters : ∀ x ∈ c.afterParameters, isSpace x
  afterRender : ∀ x ∈ c.afterRender, isSpace x
  beforeSemicolon : ∀ x ∈ c.beforeSemicolon, isBlank x
  afterSemicolon : ∀ x ∈ c.afterSemicolon, isBlank x
  parameters : closer? ('(' :: c.parameters ++ [')']) 0 = some (c.parameters.size + 1)
  prelude : Body.scan none [] (c.prelude ++ "render(".toList) = .render "render(".toList []
  markup : Markup.closeAt? (c.markup ++ [')', '}']) 0 (fun _ => true) = some (c.markup.size + 1)

variable {c}

theorem source_eq : c.source = "export".toList ++
    (c.afterExport ++ (c.kind.keyword ++ (c.afterKind ++
    (c.name ++ (c.afterName ++ '(' :: (c.parameters ++ ')' :: (c.afterParameters ++
      '{' :: (c.prelude ++ c.call)))))))) := by
  unfold source declaration
  simp

theorem here?_source (h : c.IsWritten) : Header.here? c.source none c.source =
    some ⟨c.kind, c.name, c.parameters, c.declaration.size⟩ := by
  have hblank {w : Text} (hw : ∀ x ∈ w, isSpace x) : ∀ x ∈ w, isBlank x :=
    fun x hx => isBlank_of_isSpace (hw x hx)
  have hdeclaration := Header.declaration?_append h.name h.afterExport.left h.afterKind.left
    (hblank h.afterExport.right) (hblank h.afterKind.right) (hblank h.afterName) c.kind
    (c.parameters ++ ')' :: (c.afterParameters ++ '{' :: (c.prelude ++ c.call)))
  rw [← source_eq] at hdeclaration
  have hcode : isCodeAt c.source (c.source.offset c.source) = true := by
    rw [Text.offset, Nat.sub_self, source_eq]
    rfl
  have hgroup :=
    Delimited.group?_eq h.parameters (c.afterParameters ++ '{' :: (c.prelude ++ c.call))
  have hskip : Text.skipSpace (c.afterParameters ++ '{' :: (c.prelude ++ c.call)) =
      '{' :: (c.prelude ++ c.call) :=
    Text.skipSpace_append h.afterParameters rfl
  have hoffset : c.source.offset (c.prelude ++ c.call) = c.declaration.size :=
    Text.offset_append _ _
  rw [List.cons_append] at hgroup
  simp [Header.here?, hdeclaration, startsWord, hcode, hgroup, hskip, hoffset]

theorem extract_source (h : c.IsWritten) :
    Header.extract c.source = .ok ⟨c.kind, c.name, c.parameters, c.declaration.size⟩ := by
  rw [Header.extract, Header.find?, Header.go_eq_some (here?_source h)]

theorem isPlain_ending (h : c.IsWritten) : ∀ x ∈ c.ending, Markup.isPlain x := by
  have hblank {x : Char} (hx : isBlank x) : Markup.isPlain x := by
    have hat : x ≠ '@' := ne_of_isBlank hx rfl
    have hopen : x ≠ '{' := ne_of_isBlank hx rfl
    have hclose : x ≠ '}' := ne_of_isBlank hx rfl
    simp [Markup.isPlain, hat, hopen, hclose]
  simp only [ending, List.forall_mem_append]
  refine ⟨⟨fun x hx => hblank (h.beforeSemicolon x hx), ?_⟩,
    fun x hx => hblank (h.afterSemicolon x hx)⟩
  cases c.semicolon <;> simp [Markup.isPlain]

theorem close?_call (h : c.IsWritten) {accept : Text → Bool} (ha : accept ('}' :: c.following)) :
    Markup.close? accept 0 (c.markup ++ ')' :: (c.ending ++ '}' :: c.following)) =
      some ('}' :: c.following) := by
  have hclose : Markup.close? (fun _ => true) 0 (c.markup ++ [')'] ++ ['}']) = some ['}'] := by
    have hm := h.markup
    simp only [Markup.closeAt?, Text.dropBytes, Option.bind_eq_bind] at hm
    obtain ⟨rest, hrest, hoffset⟩ := Option.bind_eq_some_iff.mp hm
    obtain ⟨after, he⟩ := Markup.exists_brace hrest
    have hsize : Text.size after = 0 := by
      have hparen : ')'.utf8Size = 1 := rfl
      have hbrace : '}'.utf8Size = 1 := rfl
      simp [Text.offset, he, hparen, hbrace] at hoffset
      omega
    have hnil : after = [] := by
      apply Classical.byContradiction
      intro hne
      have := Text.size_pos_of_ne_nil hne
      omega
    rw [he, hnil] at hrest
    rw [List.append_assoc]
    exact hrest
  have happend := Markup.close?_append (isPlain_ending h) ha (by simp) hclose
  rwa [List.append_assoc, List.singleton_append] at happend

theorem split_source (h : c.IsWritten) : Body.split c.source c.declaration.size =
    .ok ⟨c.prelude.trim, c.markup.trim, c.declaration.size + c.prelude.size⟩ := by
  have hstatements : c.source.dropBytes c.declaration.size = c.prelude ++ c.call :=
    Text.dropBytes_append _ _
  have hbefore : (c.source.before (c.prelude ++ c.call)).getLast? = some '{' := by
    rw [source, Text.before_append]
    unfold declaration
    simp [List.getLast?_append, List.getLast?_cons]
  have hscan : Body.scan (some '{') [] (c.prelude ++ c.call) =
      .render c.call (c.markup ++ ')' :: (c.ending ++ '}' :: c.following)) := by
    have hjoins : Body.joinsWord (some '{') = Body.joinsWord none := rfl
    have hnone := Body.scan_append h.prelude h.afterRender
      (c.markup ++ ')' :: (c.ending ++ '}' :: c.following))
    exact (Body.scan_congr hjoins [] _).trans hnone
  have hargument : Body.argument? ((c.markup ++ ')' :: (c.ending ++ '}' :: c.following)).before
      ('}' :: c.following)) = some c.markup := by
    have he : c.markup ++ ')' :: (c.ending ++ '}' :: c.following) =
        (c.markup ++ ')' :: c.ending) ++ '}' :: c.following := by
      simp
    rw [he, Text.before_append]
    exact Body.argument?_append h.beforeSemicolon h.afterSemicolon c.semicolon
  have hclose : Markup.close? (fun brace => (Body.argument?
      ((c.markup ++ ')' :: (c.ending ++ '}' :: c.following)).before brace)).isSome) 0
      (c.markup ++ ')' :: (c.ending ++ '}' :: c.following)) = some ('}' :: c.following) :=
    close?_call h (by simp [hargument])
  have hprelude : (c.prelude ++ c.call).before c.call = c.prelude := Text.before_append _ _
  have hoffset : c.source.offset c.call = c.declaration.size + c.prelude.size := by
    rw [source, ← List.append_assoc, Text.offset_append, Text.size_append]
  simp only [Body.split, hstatements, hbefore, hscan, hclose, Option.some_or, Option.bind_some,
    hargument, hprelude, hoffset]

theorem extract_and_split (h : c.IsWritten) :
    Header.extract c.source = .ok ⟨c.kind, c.name, c.parameters, c.declaration.size⟩ ∧
      Body.split c.source c.declaration.size =
        .ok ⟨c.prelude.trim, c.markup.trim, c.declaration.size + c.prelude.size⟩ :=
  ⟨extract_source h, split_source h⟩

theorem extract_and_split_card : ∃ c : Layout, c.IsWritten ∧
    Header.extract c.source =
      .ok ⟨.persistent, "Card".toList, "a = \")\", b /* ( */".toList, c.declaration.size⟩ ∧
    Body.split c.source c.declaration.size =
      .ok ⟨"const s = \"render(\"; f(() => \x7b render(1) \x7d);".toList,
        "Don't @if (a == \")\") \x7bx\x7d".toList, c.declaration.size + 46⟩ := by
  have h : IsWritten {
      kind := .persistent
      name := "Card".toList
      parameters := "a = \")\", b /* ( */".toList
      prelude := " const s = \"render(\"; f(() => \x7b render(1) \x7d);\n".toList
      markup := " Don't @if (a == \")\") \x7bx\x7d".toList
      afterExport := [' ']
      afterKind := ['\n', ' ']
      afterName := []
      afterParameters := [' ']
      afterRender := [' ']
      beforeSemicolon := ['\u00a0']
      semicolon := true
      afterSemicolon := ['\n']
      following := "\x7d // \x7b render(".toList } := {
    name := by decide
    afterExport := by simp [isSpace]
    afterKind := by simp [isSpace]
    afterName := by simp
    afterParameters := by simp [isSpace]
    afterRender := by simp [isSpace]
    beforeSemicolon := by simp [isBlank]
    afterSemicolon := by simp [isBlank]
    parameters := by decide
    prelude := by decide
    markup := by cbv }
  exact ⟨_, h, extract_and_split h⟩

end Layout

end Componentry
