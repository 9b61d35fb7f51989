import Componentry.Json.Reader
import Componentry.Proofs.Json.Quoted

/-!
Values that are read back from what is written of them: texts, and objects of such values.
-/
namespace Componentry.Json

-- A piece of text that gives the same tokens whatever follows.
structure Lexes (t : Text) (tokens : List Token) : Prop where
  length_le : tokens.length ≤ t.length
  all?_append {bound : Nat} {rest : Text} {more : List Token} (h : Token.all? bound rest =
    some more) :
    Token.all? (tokens.length + bound) (t ++ rest) = some (tokens ++ more)

namespace Lexes

theorem append {s t : Text} {ss ts : List Token} (hs : Lexes s ss) (ht : Lexes t ts) :
    Lexes (s ++ t) (ss ++ ts) := by
  refine ⟨by simpa using Nat.add_le_add hs.length_le ht.length_le, fun h => ?_⟩
  have := hs.all?_append (ht.all?_append h)
  simpa [Nat.add_assoc] using this

theorem single {c : Char} {t : Text} {token : Token} (hc : Token.isBetween c = false)
    (hf : ∀ rest, Token.first? (c :: t ++ rest) = some (token, rest)) : Lexes (c :: t) [token] := by
  refine ⟨by simp, fun {bound rest more} h => ?_⟩
  have hd : (c :: t ++ rest).dropWhile Token.isBetween = c :: t ++ rest := by simp [hc]
  rw [List.length_singleton, Nat.add_comm]
  unfold Token.all?
  simp only [hd]
  simp only [List.cons_append] at hf ⊢
  simp [hf, h]

theorem mark {c : Char} (h : Token.isMark c) : Lexes [c] [.mark c] := by
  refine single ?_ fun rest => by simp [Token.first?, h]
  simp only [Token.isMark, Token.isBetween] at *
  grind

theorem quoted (t : Text) :
    Lexes ('"' :: (t.flatMap Text.quotedChar ++ ['"'])) [.scalar (.ofText t)] := by
  refine single rfl fun rest => ?_
  simp [Token.first?, Token.isMark, string?_quoted, ofText]

theorem all?_eq {t : Text} {tokens : List Token} (h : Lexes t tokens) :
    Token.all? t.length t = some tokens := by
  have ⟨bound, hb⟩ := Nat.exists_eq_add_of_le h.length_le
  have hnil : Token.all? bound [] = some [] := by cases bound <;> rfl
  have := h.all?_append hnil
  simpa [hb] using this

end Lexes

-- A value whose text gives tokens that spell it, wherever it stands.
def ReadsBack (value : Json) : Prop :=
  ∃ tokens, Lexes value.write tokens ∧ ∀ frames rest,
    ofTokens? frames .value (tokens ++ rest) = ofTokens? frames (.after value) rest

theorem ReadsBack.parse?_write {value : Json} (h : value.ReadsBack) :
    parse? value.write = some value := by
  have ⟨tokens, hl, ho⟩ := h
  have := ho [] []
  simp only [List.append_nil] at this
  simp [parse?, hl.all?_eq, this, ofTokens?]

theorem readsBack_ofText (t : Text) : (ofText t).ReadsBack := by
  refine ⟨[.scalar (.ofText t)], ?_, fun frames rest => by simp [ofTokens?]⟩
  simpa [write, ofText] using Lexes.quoted t

-- The entries of an object from the first key on, with those before them backward.
theorem exists_tokens_entries {entries : List (Text × Json)} (hn : entries ≠ [])
    (h : ∀ e ∈ entries, (∃ key : Text, e.1 = key.flatMap Text.quotedChar) ∧ e.2.ReadsBack) :
    ∃ key tokens, Lexes (Text.joinWith [','] (writeEntries entries))
        (.scalar (.string key) :: tokens) ∧
      ∀ frames before rest, ofTokens? frames (.colon before key) (tokens ++ .mark '}' :: rest) =
        ofTokens? frames (.after (.object (before.reverse ++ entries))) rest := by
  induction entries
  case nil => contradiction
  case cons e entries ih =>
    obtain ⟨spelling, value⟩ := e
    obtain ⟨⟨⟨key, hkey⟩, tokens, hlexes, hspells⟩, hothers⟩ := List.forall_mem_cons.mp h
    dsimp only at hkey hlexes hspells
    have hentry : Lexes ('"' :: spelling ++ ['"', ':'] ++ value.write)
        ([.scalar (.string spelling), .mark ':'] ++ tokens) := by
      have := ((Lexes.quoted key).append (Lexes.mark (c := ':') rfl)).append hlexes
      simpa [ofText, hkey] using this
    cases entries
    case nil =>
      refine ⟨spelling, .mark ':' :: tokens,
        by simpa [writeEntries, Text.joinWith] using hentry, ?_⟩
      intro frames before rest
      simp [ofTokens?, hspells]
    case cons next entries =>
      obtain ⟨key', tokens', hlexes', hspells'⟩ := ih (by simp) hothers
      have hcomma := hentry.append ((Lexes.mark (c := ',') rfl).append hlexes')
      refine ⟨spelling, _, by simpa [writeEntries, Text.joinWith] using hcomma, ?_⟩
      intro frames before rest
      simp [ofTokens?, hspells, hspells']

theorem readsBack_object {entries : List (Text × Json)}
    (h : ∀ e ∈ entries, (∃ key : Text, e.1 = key.flatMap Text.quotedChar) ∧ e.2.ReadsBack) :
    (Json.object entries).ReadsBack := by
  have hopen : Lexes ['{'] [.mark '{'] := .mark rfl
  have hclose : Lexes ['}'] [.mark '}'] := .mark rfl
  cases entries
  case nil =>
    refine ⟨[.mark '{', .mark '}'], hopen.append hclose, fun frames rest => ?_⟩
    simp [ofTokens?]
  case cons e entries =>
    have ⟨key, tokens, hlexes, hspells⟩ := exists_tokens_entries (by simp) h
    refine ⟨_, by simpa [write] using hopen.append (hlexes.append hclose), fun frames rest => ?_⟩
    simp [ofTokens?, hspells]

end Componentry.Json
