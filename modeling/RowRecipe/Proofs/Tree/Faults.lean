import RowRecipe.Proofs.Tree.Reading

/-!
Where readers meet faults. A reader goes through its lexemes from the front, so what it misses it
misses at one of them or at what ends them. Two kinds of faults are different: a pragma of an unknown
name is met at the name, and the faults of a list of properties are those of the text between its
braces.
-/

namespace RowRecipe

namespace Outcome

variable {ε α β : Type} {Q : α → Prop} {R : β → Prop} {P : ε → Prop} {result : Except ε α}

/-- The value of a computation is as described, or else its error is. -/
def Settles (Q : α → Prop) (P : ε → Prop) : Except ε α → Prop
  | .ok a => Q a
  | .error e => P e

theorem Settles.bind (h : Settles Q P result) {next : α → Except ε β}
    (hnext : ∀ a, result = .ok a → Q a → Settles R P (next a)) :
    Settles R P (result >>= next) := by
  cases result with
  | ok a => exact hnext a rfl h
  | error e => exact h

theorem Settles.map (h : Settles Q P result) {g : α → β} (hg : ∀ a, Q a → R (g a)) :
    Settles R P (result.map g) := by
  cases result with
  | ok a => exact hg a h
  | error e => exact h

theorem Settles.mono {P' : ε → Prop} (h : Settles Q P result) (herror : ∀ e, P e → P' e) :
    Settles Q P' result := by
  cases result with
  | ok a => exact h
  | error e => exact herror e h

theorem Settles.error {e : ε} (h : Settles Q P result) (he : result = .error e) : P e := by
  rw [he] at h
  exact h

end Outcome

open Outcome

/-- Among the lexemes are `prop`, a colon and the block. -/
structure Lexeme.HasProperties (ls : List Lexeme) (block : Lexeme) : Prop where
  isBlock : block.kind = .block
  announced : ∃ name colon, [name, colon, block] <:+: ls ∧ name.kind = .identifier ∧
    name.content = "prop" ∧ colon.kind = .colon

namespace Ending

variable {ending : Ending} {whole ls : List Lexeme} {fault : GrammarFault}

/-- Something else was wanted at one of the lexemes, or at what ends them. -/
inductive Missed (ending : Ending) (ls : List Lexeme) : GrammarFault → Prop
  | lexeme {l : Lexeme} (hl : l ∈ ls) (wanted : Wanted) :
      Missed ending ls ⟨l.start, .expected wanted (some l.kind)⟩
  | atEnd (wanted : Wanted) : Missed ending ls ⟨ending.offset, .expected wanted ending.found⟩

/-- The lexemes that are left belong to the whole. -/
def Left {α : Type} (whole : List Lexeme) (made : α × List Lexeme) : Prop := made.2 <:+ whole

theorem fault_missed (h : ls <:+ whole) (wanted : Wanted) :
    ending.Missed whole (ending.fault wanted ls) := by
  cases ls with
  | nil => exact .atEnd wanted
  | cons l rest => exact .lexeme (h.subset List.mem_cons_self) wanted

theorem suffix_of_cons {l : Lexeme} {rest : List Lexeme} (h : l :: rest <:+ whole) :
    rest <:+ whole :=
  (List.suffix_cons l rest).trans h

theorem expect_settles (wanted : Wanted) (kind : Lexeme.Kind) (h : ls <:+ whole) :
    Settles (Left whole) (ending.Missed whole) (ending.expect wanted kind ls) := by
  cases ls with
  | nil => exact fault_missed h wanted
  | cons l rest =>
      by_cases hkind : l.kind = kind
      · rw [expect, if_pos hkind]
        exact suffix_of_cons h
      · rw [expect, if_neg hkind]
        exact fault_missed h wanted

theorem expectOneOf_settles (wanted : Wanted) (kinds : List (Lexeme.Kind × Rule))
    (h : ls <:+ whole) :
    Settles (Left whole) (ending.Missed whole) (ending.expectOneOf wanted kinds ls) := by
  cases ls with
  | nil => exact fault_missed h wanted
  | cons l rest =>
      simp only [expectOneOf]
      cases kinds.find? fun k => k.1 == l.kind with
      | none => exact fault_missed h wanted
      | some k => exact suffix_of_cons h

theorem items_settles (kind : Lexeme.Kind) (h : ls <:+ whole) :
    Settles (Left whole) (ending.Missed whole) (ending.items kind ls) := by
  fun_induction Ending.items ending kind ls with
  | case1 => exact h
  | case2 => exact fault_missed (suffix_of_cons h) _
  | case3 comma hcomma l others hl ih =>
      exact (ih (suffix_of_cons (suffix_of_cons h))).map fun _ hleft => hleft
  | case4 => exact fault_missed (suffix_of_cons h) _
  | case5 => exact h

/-- What can be wrong between the braces of a block: no lexeme starts somewhere, or something else was
wanted at one of the lexemes or at the closing brace. -/
inductive FaultInside (block : Lexeme) : GrammarFault → Prop
  | lexical {failure : Lexeme.Failure}
      (hscan : Lexeme.scan (block.text.drop 1).dropLast (block.start + 1) = .error failure) :
      FaultInside block ⟨failure.start, .lexical failure.issue⟩
  | missed {inner : List Lexeme} {fault : GrammarFault}
      (hscan : Lexeme.scan (block.text.drop 1).dropLast (block.start + 1) = .ok inner)
      (h : Missed ⟨block.stop - 1, none⟩ inner fault) : FaultInside block fault

/-- What can be wrong with the lexemes of a run. -/
inductive Faulty (ending : Ending) (ls : List Lexeme) : GrammarFault → Prop
  | missed {fault : GrammarFault} (h : ending.Missed ls fault) : Faulty ending ls fault
  | pragma {start name : Lexeme} (hin : [start, name] <:+: ls) (hstart : start.kind = .pragma)
      (hname : name.kind = .identifier) :
      Faulty ending ls ⟨name.start, .unknownPragma name.content⟩
  | inside {block : Lexeme} {fault : GrammarFault} (hblock : Lexeme.HasProperties ls block)
      (h : FaultInside block fault) : Faulty ending ls fault

end Ending

namespace Node

open Ending

variable {source : List Char} {ending : Ending} {whole ls : List Lexeme}

theorem range_settles (h : ls <:+ whole) :
    Settles (Left whole) (ending.Missed whole) (range source ending ls) := by
  apply (expect_settles .rangeLow .number h).bind
  rintro ⟨low, ls⟩ - h
  apply (expect_settles .rangeColon .colon h).bind
  rintro ⟨_, ls⟩ - h
  apply (expect_settles .rangeHigh .number h).bind
  rintro ⟨high, ls⟩ - h
  apply (expect_settles .rangeEquals .equals h).bind
  rintro ⟨_, ls⟩ - h
  apply (expectOneOf_settles .rangeValue _ h).bind
  rintro ⟨label, ls⟩ - h
  exact h

theorem ranges_settles (fuel : Nat) (h : ls <:+ whole) :
    Settles (Left whole) (ending.Missed whole) (ranges source ending fuel ls) := by
  induction fuel generalizing ls with
  | zero => exact fault_missed h .rangeLow
  | succ fuel ih =>
      apply (range_settles h).bind
      rintro ⟨first, ls⟩ - h
      cases ls with
      | nil => exact h
      | cons comma rest =>
          by_cases hcomma : comma.kind = .comma
          · simp only [if_pos hcomma]
            apply (ih (suffix_of_cons h)).bind
            rintro ⟨more, ls⟩ - h
            exact h
          · simp only [if_neg hcomma]
            exact h

theorem dropNewlines_suffix (h : ls <:+ whole) : dropNewlines ls <:+ whole :=
  (List.dropWhile_suffix _).trans h

theorem property_settles (h : ls <:+ whole) :
    Settles (Left whole) (ending.Missed whole) (property source ending ls) := by
  apply (expectOneOf_settles .propertyName _ h).bind
  rintro ⟨key, ls⟩ - h
  apply (expect_settles .propertyEquals .equals h).bind
  rintro ⟨_, ls⟩ - h
  apply (expectOneOf_settles .propertyValue _ h).bind
  rintro ⟨value, ls⟩ - h
  exact h

theorem properties_settles (fuel : Nat) (h : ls <:+ whole) :
    Settles (fun _ => True) (ending.Missed whole) (properties source ending fuel ls) := by
  induction fuel generalizing ls with
  | zero =>
      have hfront := dropNewlines_suffix h
      unfold properties
      cases hls : dropNewlines ls with
      | nil => trivial
      | cons l rest =>
          rw [hls] at hfront
          exact fault_missed hfront .propertyName
  | succ fuel ih =>
      have hfront := dropNewlines_suffix h
      unfold properties
      cases hls : dropNewlines ls with
      | nil => trivial
      | cons l rest =>
          rw [hls] at hfront
          apply (property_settles hfront).bind
          rintro ⟨first, ls⟩ - hleft
          have hnext := dropNewlines_suffix hleft
          cases hmore : dropNewlines ls with
          | nil =>
              simp only [hmore]
              trivial
          | cons comma rest =>
              rw [hmore] at hnext
              by_cases hcomma : comma.kind = .comma
              · simp only [hmore, if_pos hcomma]
                exact (ih (suffix_of_cons hnext)).map fun _ _ => trivial
              · simp only [hmore, if_neg hcomma]
                exact fault_missed hnext .propertyComma

theorem propertiesOf_settles (source : List Char) (block : Lexeme) :
    Settles (fun _ => True) (FaultInside block) (propertiesOf source block) := by
  unfold propertiesOf
  cases hscan : Lexeme.scan (block.text.drop 1).dropLast (block.start + 1) with
  | error failure => exact .lexical hscan
  | ok inner =>
      exact (properties_settles inner.length List.suffix_rfl).mono fun _ => .missed hscan

theorem named_settles {name : Lexeme} (hname : name.kind = .identifier)
    (h : name :: ls <:+ whole) :
    Settles (Left whole) (ending.Faulty whole) (named source name ls) := by
  have hleaf : Left whole (leaf source .identifier name, ls) := suffix_of_cons h
  match ls with
  | [] => exact hleaf
  | [_] => exact hleaf
  | colon :: block :: rest =>
      have hrest : rest <:+ whole := suffix_of_cons (suffix_of_cons (suffix_of_cons h))
      simp only [named]
      by_cases hprop : colon.kind = .colon ∧ block.kind = .block ∧ name.content = "prop"
      · obtain ⟨hcolon, hblock, hword⟩ := hprop
        have hin : [name, colon, block] <:+: whole :=
          (List.prefix_append [name, colon, block] rest).isInfix.trans h.isInfix
        have hlisted : Lexeme.HasProperties whole block :=
          ⟨hblock, name, colon, hin, hname, hword, hcolon⟩
        rw [if_pos (And.intro hcolon ⟨hblock, hword⟩)]
        apply ((propertiesOf_settles source block).mono fun _ => Faulty.inside hlisted).bind
        rintro entries - -
        exact hrest
      · rw [if_neg hprop]
        split
        · exact hrest
        · exact hleaf

theorem list_settles (kind : Lexeme.Kind) (itemRule listRule : Rule) (first : Lexeme)
    (h : ls <:+ whole) :
    Settles (Left whole) (ending.Missed whole)
      (ending.items kind ls >>= fun read =>
        .ok (ofItems source itemRule listRule first read.1, read.2)) := by
  apply (items_settles kind h).bind
  rintro ⟨more, ls⟩ - h
  exact h

theorem numeric_settles {number : Lexeme} (h : number :: ls <:+ whole) :
    Settles (Left whole) (ending.Missed whole) (numeric source ending number ls) := by
  unfold numeric
  split
  · apply (ranges_settles _ h).bind
    rintro ⟨entries, ls⟩ - h
    exact h
  · exact list_settles .number .number .numberList number (suffix_of_cons h)

theorem argument_settles {first : Lexeme} (h : first :: ls <:+ whole) :
    Settles (Left whole) (ending.Faulty whole) (argument source ending first ls) := by
  have hls := suffix_of_cons h
  unfold argument
  cases hkind : first.kind with
  | column => exact (list_settles .column .column .columnList first hls).mono fun _ => .missed
  | string => exact (list_settles .string .text .textList first hls).mono fun _ => .missed
  | bool => exact (list_settles .bool .bool .boolList first hls).mono fun _ => .missed
  | number => exact (numeric_settles h).mono fun _ => .missed
  | unitLiteral => exact hls
  | block => exact hls
  | identifier => exact named_settles hkind h
  | newline | pragma | semicolon | comma | colon | equals | bang =>
      exact .missed (fault_missed h .argument)

theorem arguments_settles (fuel : Nat) (h : ls <:+ whole) :
    Settles (fun _ => True) (ending.Faulty whole) (arguments source ending fuel ls) := by
  induction fuel generalizing ls with
  | zero =>
      cases ls with
      | nil => trivial
      | cons l rest => exact .missed (fault_missed h .argument)
  | succ fuel ih =>
      cases ls with
      | nil => trivial
      | cons l rest =>
          apply (argument_settles h).bind
          rintro ⟨first, ls⟩ - h
          exact (ih h).map fun _ _ => trivial

theorem loadPragma_settles (start : Lexeme) (h : ls <:+ whole) :
    Settles (Left whole) (ending.Missed whole) (loadPragma source ending start ls) := by
  apply (expect_settles .loadableName .identifier h).bind
  rintro ⟨first, ls⟩ - h
  apply (items_settles .identifier h).bind
  rintro ⟨more, ls⟩ - h
  exact h

theorem versionPragma_settles (start : Lexeme) (h : ls <:+ whole) :
    Settles (Left whole) (ending.Missed whole) (versionPragma source ending start ls) := by
  apply (expectOneOf_settles .version _ h).bind
  rintro ⟨value, ls⟩ - h
  exact h

theorem pragma_settles {start : Lexeme} (hstart : start.kind = .pragma) (h : start :: ls <:+ whole) :
    Settles (fun _ => True) (ending.Faulty whole) (pragma source ending start ls) := by
  have hexpect : Settles (Left whole) (ending.Missed whole)
      (ending.expect .pragmaName .identifier ls) :=
    expect_settles .pragmaName .identifier (suffix_of_cons h)
  apply (hexpect.mono fun _ => Faulty.missed).bind
  rintro ⟨name, left⟩ hread hleft
  obtain ⟨rfl, hname⟩ := expect_eq_ok.mp hread
  have hin : [start, name] <:+: whole :=
    (List.prefix_append [start, name] left).isInfix.trans h.isInfix
  -- What follows either kind of pragma is the same: nothing may be left of the run.
  have hend : ∀ read : Node × List Lexeme, Left whole read →
      Settles (fun _ => True) (ending.Faulty whole)
        (if read.2.isEmpty then .ok read.1 else .error (ending.fault .terminator read.2)) := by
    rintro ⟨made, ls⟩ hls
    cases ls with
    | nil => trivial
    | cons l rest => exact .missed (fault_missed hls .terminator)
  change Settles _ _
    (if name.content = "load-directives" then _ else if name.content = "version" then _ else _)
  split
  · exact ((loadPragma_settles start hleft).mono fun _ => Faulty.missed).bind
      fun read _ hread => hend read hread
  · split
    · exact ((versionPragma_settles start hleft).mono fun _ => Faulty.missed).bind
        fun read _ hread => hend read hread
    · exact .pragma hin hstart hname

theorem command_settles (h : ls <:+ whole) :
    Settles (Left whole) (ending.Missed whole) (command source ending ls) := by
  cases ls with
  | nil => exact fault_missed h .directiveName
  | cons l rest =>
      simp only [command]
      split
      · exact suffix_of_cons h
      · split
        · apply (expect_settles .customName .identifier (suffix_of_cons h)).bind
          rintro ⟨name, ls⟩ - h
          exact h
        · exact fault_missed h .directiveName

theorem directive_settles (h : ls <:+ whole) :
    Settles (fun _ => True) (ending.Faulty whole) (directive source ending ls) := by
  apply ((command_settles h).mono fun _ => Faulty.missed).bind
  rintro ⟨name, ls⟩ - h
  apply (arguments_settles ls.length h).bind
  intros
  trivial

/-- What is wrong with a run is wrong somewhere in it or at what ends it. -/
theorem ofRun_settles (source : List Char) (run : Run) :
    Settles (fun _ => True) (run.ending.Faulty run.lexemes) (ofRun source run) := by
  obtain ⟨ls, ending⟩ := run
  cases ls with
  | nil => exact directive_settles List.suffix_rfl
  | cons l rest =>
      unfold ofRun
      by_cases hpragma : l.kind = .pragma
      · simp only [if_pos hpragma]
        exact pragma_settles hpragma List.suffix_rfl
      · simp only [if_neg hpragma]
        exact directive_settles List.suffix_rfl

end Node

end RowRecipe
