import RowRecipe.Proofs.Lexeme.Apart
import RowRecipe.SymbolTable.OfTree

/-!
Tokens of nodes that stand over several lexemes. The text of such a node has the gaps between its
lexemes in it. The body of an expression is found behind any gaps; from the name of a custom directive
only the mark is taken away, so a gap behind the mark stays in front of the name.
-/

namespace RowRecipe

open Lexeme

/-- Between ends that are not blank, nothing is taken away. -/
theorem Text.trim_of_ends {c : Char} (hc : isBlank c = false) (middle : List Char)
    {last : List Char} (hne : last ≠ []) (hlast : ∀ d ∈ last, isBlank d = false) :
    trim (c :: (middle ++ last)) = c :: (middle ++ last) := by
  obtain ⟨front, d, rfl⟩ := (List.eq_nil_or_concat last).resolve_left hne
  refine trim_eq_self (stopsAt_cons hc _) ?_
  rw [List.concat_eq_append, ← List.append_assoc, ← List.cons_append, List.reverse_append]
  exact stopsAt_cons (hlast d (by simp)) _

theorem Text.trimStart_append {gap : List Char} (hgap : ∀ c ∈ gap, isBlank c = true) {c : Char}
    (hc : isBlank c = false) (rest : List Char) : trimStart (gap ++ c :: rest) = c :: rest :=
  dropWhile_append_of_stopsAt hgap (stopsAt_cons hc rest)

theorem Lexeme.IsName.continuesName {cs : List Char} (h : IsName cs) :
    ∀ c ∈ cs, Pattern.continuesName c = true := by
  obtain ⟨c, rest, rfl, hc, hrest⟩ := h
  exact List.forall_mem_cons.mpr ⟨Pattern.continuesName_of_startsName hc, hrest⟩

theorem Lexeme.IsName.not_blank {cs : List Char} (h : IsName cs) :
    ∀ c ∈ cs, Text.isBlank c = false := fun c hc =>
  Pattern.isBlank_of_continuesColumn
    (Pattern.continuesColumn_of_continuesName (h.continuesName c hc))

namespace Node

variable {node : Node}

theorem expressionBody_braces (body : List Char) :
    expressionBody ('{' :: (body ++ ['}'])) = Text.trim body := by
  have hlast : (body ++ ['}']).getLast? = some '}' := List.getLast?_concat
  have hexp : afterOptional ['e', 'x', 'p'] ('{' :: (body ++ ['}'])) = '{' :: (body ++ ['}']) := rfl
  have hcolon : afterOptional [':'] ('{' :: (body ++ ['}'])) = '{' :: (body ++ ['}']) := rfl
  rw [expressionBody, hexp, hcolon, betweenBraces, if_pos hlast, List.dropLast_concat]

/-- The text of an expression with its mark, and with gaps around the colon. -/
def markedText (gap gap' body : List Char) : List Char :=
  "exp".toList ++ (gap ++ ':' :: (gap' ++ '{' :: (body ++ ['}'])))

variable {gap gap' : List Char} (hgap : ∀ c ∈ gap, Text.isBlank c = true)
  (hgap' : ∀ c ∈ gap', Text.isBlank c = true)

include hgap hgap' in
/-- The mark of an expression is no part of its body, whatever blanks stand in it. -/
theorem expressionBody_marked (body : List Char) :
    expressionBody (Text.trim (markedText gap gap' body)) = Text.trim body := by
  have htrim : Text.trim (markedText gap gap' body) = markedText gap gap' body := by
    have hbrace : ∀ d ∈ ['}'], Text.isBlank d = false := List.forall_mem_singleton.mpr (by decide)
    have hends := Text.trim_of_ends (c := 'e') (by decide)
      ('x' :: 'p' :: (gap ++ ':' :: (gap' ++ '{' :: body))) (List.cons_ne_nil '}' []) hbrace
    have htext : markedText gap gap' body =
        'e' :: (('x' :: 'p' :: (gap ++ ':' :: (gap' ++ '{' :: body))) ++ ['}']) := by
      simp only [markedText, List.append_assoc, List.cons_append]
      rfl
    rw [htext, hends]
  have hexp : afterOptional ['e', 'x', 'p'] (markedText gap gap' body) =
      ':' :: (gap' ++ '{' :: (body ++ ['}'])) := by
    change Text.trimStart (gap ++ ':' :: (gap' ++ '{' :: (body ++ ['}']))) = _
    exact Text.trimStart_append hgap (by decide) _
  have hcolon : afterOptional [':'] (':' :: (gap' ++ '{' :: (body ++ ['}']))) =
      '{' :: (body ++ ['}']) := by
    change Text.trimStart (gap' ++ '{' :: (body ++ ['}'])) = _
    exact Text.trimStart_append hgap' (by decide) _
  rw [htrim, expressionBody, hexp, hcolon]
  exact expressionBody_braces body

theorem token_command {name : List Char} (hname : IsName name) (hrule : node.rule = .command)
    (htext : node.text.toList = name) (span : Span) :
    token span node = .ok (.directiveName (String.ofList name)) := by
  rw [token, hrule]
  change Except.ok (Token.directiveName (String.ofList (Text.trim node.text.toList))) = _
  rw [htext, Text.trim_of_forall hname.not_blank]

include hgap in
/-- A gap between the mark and the name stays in front of the name. -/
theorem token_customCommand {name : List Char} (hname : IsName name)
    (hrule : node.rule = .customCommand) (htext : node.text.toList = '!' :: (gap ++ name))
    (span : Span) :
    token span node = .ok (.directiveName (String.ofList (gap ++ name))) := by
  have hne : name ≠ [] := by
    obtain ⟨c, rest, rfl, -⟩ := hname
    exact List.cons_ne_nil c rest
  have htrim : Text.trim ('!' :: (gap ++ name)) = '!' :: (gap ++ name) :=
    Text.trim_of_ends (by decide) gap hne hname.not_blank
  have hstops : Text.StopsAt (· == '!') (gap ++ name) := by
    cases gap with
    | nil =>
        obtain ⟨c, rest, rfl, hc, -⟩ := hname
        have hother : c ≠ '!' := by
          rintro rfl
          cases hc
        exact Text.stopsAt_cons (p := (· == '!')) (beq_eq_false_iff_ne.mpr hother) rest
    | cons c more =>
        have hc := hgap c List.mem_cons_self
        have hother : c ≠ '!' := by
          rintro rfl
          cases hc
        exact Text.stopsAt_cons (p := (· == '!')) (beq_eq_false_iff_ne.mpr hother) _
  have hdrop : ('!' :: (gap ++ name)).dropWhile (· == '!') = gap ++ name := by
    rw [List.dropWhile_cons_of_pos rfl, Text.dropWhile_of_stopsAt hstops]
  rw [token, hrule]
  change Except.ok (Token.directiveName (String.ofList
    ((Text.trim node.text.toList).dropWhile (· == '!')))) = _
  rw [htext, htrim, hdrop]

end Node

end RowRecipe
