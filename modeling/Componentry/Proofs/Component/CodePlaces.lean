import Componentry.Proofs.Code.Places
import Componentry.Proofs.Component.Declaration
import Componentry.Proofs.Component.Verdict

/-!
Where the parts of a component are found. The reading that looks for the end of the parameters, or
for the call among the statements, starts in the middle of the text. From a place in code it gets to
no other places than the reading of the whole text does.
-/
namespace Componentry

open Code

namespace Header

variable {source before after lead name space statements : Text} {kind : Kind} {closer : Char}
  {header : Header}

theorem IsLead.isOrdinary (h : IsLead kind name lead) : ∀ c ∈ lead, isOrdinary c := by
  obtain ⟨hn, hw₁, hw₂, hb₁, hb₂, hb₃⟩ := h
  have hblank {w : Text} (hb : ∀ c ∈ w, isBlank c) : ∀ c ∈ w, isOrdinary c :=
    fun c hc => isOrdinary_of_isBlank (hb c hc)
  have hexport : ∀ c ∈ "export".toList, isOrdinary c := List.all_eq_true.mp (by decide)
  have hkeyword : ∀ c ∈ kind.keyword, isOrdinary c := List.all_eq_true.mp (by cases kind <;> decide)
  have hname : ∀ c ∈ name, isOrdinary c := fun c hc => isOrdinary_of_isPart (hn.isPart_of_mem hc)
  simp only [List.forall_mem_append]
  exact ⟨hexport, hblank hb₁, hkeyword, hblank hb₂, hname, hblank hb₃⟩

theorem Declares.leave_eq (h : Declares source before after lead closer space statements header) :
    leave [.group] (header.parameters ++ closer :: (space ++ '{' :: statements)) =
      some (header.parameters ++ [closer], space ++ '{' :: statements) := by
  have hcloses := h.closes
  rw [h.source_eq, h.after_eq, ← List.append_assoc, closer?_append] at hcloses
  obtain ⟨⟨inside, rest⟩, hg, hsize⟩ := Option.map_eq_some_iff.mp hcloses
  obtain ⟨_, d, hl⟩ := group?_eq_some_iff.mp hg
  have he := leave_append hl
  rw [List.append_assoc, List.singleton_append] at he
  obtain ⟨hi, hr⟩ := Text.append_inj_of_size he (by simpa using hsize.symm)
  obtain ⟨hd, hrest⟩ := List.cons.inj hr
  rw [hl, ← hi, ← hd, ← hrest]

theorem Declares.exists_contextsAfter (h : Declares source before after lead closer
      space statements header) :
    ∃ head depth, source = head ++ '{' :: statements ∧
    contextsAfter [] head = List.replicate depth .group := by
  obtain ⟨words, hlead⟩ := List.head?_eq_some_iff.mp (by simpa using h.isLead.head? [])
  have hordinary := h.isLead.isOrdinary
  rw [hlead] at hordinary
  obtain ⟨hfirst, hwords⟩ := List.forall_mem_cons.mp hordinary
  have hcode := h.isCode
  rw [h.source_eq, isCodeAt_append, h.after_eq, hlead] at hcode
  obtain ⟨depth, hw⟩ := (@isCode_iff _ _ []).mp hcode
  have hstart : contextsAfter (contextsAfter [] before) lead = List.replicate depth .group := by
    rw [hlead, contextsAfter_cons, hw.after_eq, afterCode_of_isOrdinary hfirst,
      contextsAfter_of_isOrdinary hwords]
  have hopen : Context.after (List.replicate depth .group) '(' =
      [.group] ++ List.replicate depth .group :=
    IsOutside.after_replicate depth '('
  have hparameters :=
    contextsAfter_leave (by simp [SelfContained]) h.leave_eq (List.replicate depth .group)
  have hspace : ∀ c ∈ space, isOrdinary c := fun c hc =>
    isOrdinary_of_isBlank (isBlank_of_isSpace (h.isSpace c hc))
  refine ⟨before ++ (lead ++ '(' :: ((header.parameters ++ [closer]) ++ space)), depth,
    by simp [h.source_eq, h.after_eq], ?_⟩
  rw [contextsAfter_append, contextsAfter_append, hstart, contextsAfter_cons, hopen,
    contextsAfter_append, hparameters, contextsAfter_of_isOrdinary hspace]

theorem exists_contextsAfter_of_extract (h : extract source = .ok header) : ∃ lead statements depth,
    source = lead ++ '{' :: statements ∧ header.bodyStart = lead.size + 1 ∧
      contextsAfter [] (lead ++ ['{']) = List.replicate depth .group := by
  obtain ⟨_, before, after, words, closer, space, statements, hd, _⟩ :=
    exists_candidate_of_extract h
  obtain ⟨lead, depth, hs, hc⟩ := hd.exists_contextsAfter
  have hstart : source.offset statements = Text.size (lead ++ ['{']) := by
    rw [hs, List.append_cons, Text.offset_append]
  refine ⟨lead, statements, depth + 1, hs, by rw [hd.bodyStart_eq, hstart, Body.size_brace], ?_⟩
  rw [contextsAfter_append, hc]
  exact IsOutside.after_replicate depth '{'

end Header

-- The body of a component and the call in it start in code: outside of all literals of the whole
-- text.
theorem Component.starts_in_code {source : Text} {header : Header}
    (h : Header.extract source = .ok header) :
    (isCodeAt source header.bodyStart ∧ IsPlace source header.bodyStart) ∧
      ∀ body, Body.split source header.bodyStart = .ok body →
        isCodeAt source body.renderOffset ∧ IsPlace source body.renderOffset := by
  obtain ⟨lead, statements, depth, rfl, hstart, hcontexts⟩ :=
    Header.exists_contextsAfter_of_extract h
  rw [hstart]
  -- A place after the brace, by what is open there.
  have hplace {prelude rest : Text} {d : Nat} (he : statements = prelude ++ rest)
      (ho : rest = [] ∨ IsOutside (contextsAfter [] (lead ++ ['{'] ++ prelude)) d rest) :
      isCodeAt (lead ++ '{' :: statements) (lead.size + 1 + prelude.size) ∧
        IsPlace (lead ++ '{' :: statements) (lead.size + 1 + prelude.size) := by
    have hsource : lead ++ '{' :: statements = (lead ++ ['{'] ++ prelude) ++ rest := by simp [he]
    have hsize : lead.size + 1 + prelude.size = Text.size (lead ++ ['{'] ++ prelude) := by
      rw [Text.size_append, Body.size_brace]
    rw [hsource, hsize, isPlace_iff, and_self, isCodeAt_append]
    rcases ho with rfl | ho
    case inl => rfl
    case inr =>
      cases rest
      case nil => rfl
      case cons c rest => exact isCode_iff.mpr ⟨d, ho⟩
  refine ⟨hplace (List.nil_append statements).symm (.inr (.inl (by simpa using hcontexts))),
    fun body hb => ?_⟩
  obtain ⟨prelude, space, inside, raw, ending, rest, hcall, _, rfl⟩ := Body.split_eq_ok lead hb
  obtain ⟨d, ho⟩ := hcall.isCall.outside.exists_depth depth
  have houtside := ho.isOutside (.inl rfl)
  rw [← hcontexts, ← contextsAfter_append] at houtside
  exact hplace ho.eq_append houtside

-- A parenthesis in a string among the parameters, and calls in a template and in a comment.
theorem Component.starts_in_code_quoted : ∃ source header body,
    source = "export ephemeral A(a = ')') \x7b f(`$\x7brender('')\x7d`); ".toList ++
      "/* render(1) */ render(a) \x7d".toList ∧
    Header.extract source = .ok header ∧ Body.split source header.bodyStart = .ok body ∧
    isCodeAt source header.bodyStart ∧ isCodeAt source body.renderOffset ∧
    body.renderOffset = 66 := by
  have hextract : Header.extract
      ("export ephemeral A(a = ')') \x7b f(`$\x7brender('')\x7d`); ".toList ++
        "/* render(1) */ render(a) \x7d".toList) =
        .ok ⟨.ephemeral, ['A'], "a = ')'".toList, 29⟩ := by decide +kernel
  have hsplit : Body.split
      ("export ephemeral A(a = ')') \x7b f(`$\x7brender('')\x7d`); ".toList ++
        "/* render(1) */ render(a) \x7d".toList) 29 =
        .ok ⟨"f(`$\x7brender('')\x7d`); /* render(1) */".toList, "a".toList, 66⟩ := by cbv
  obtain ⟨⟨hbody, _⟩, hcall⟩ := starts_in_code hextract
  exact ⟨_, _, _, rfl, hextract, hsplit, hbody, (hcall _ hsplit).left, rfl⟩

end Componentry
