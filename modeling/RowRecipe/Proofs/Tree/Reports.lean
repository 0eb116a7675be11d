import RowRecipe.Proofs.Lexeme.Layout
import RowRecipe.Proofs.Lexeme.Order
import RowRecipe.Proofs.Lexeme.Tiling
import RowRecipe.Proofs.Source.Places
import RowRecipe.Proofs.Tree.Faults
import RowRecipe.Proofs.Tree.Joining
import RowRecipe.SymbolTable.OfTree

/-!
What an error of the grammar points at. A text that does not fall into lexemes is reported where the
scan fails, and one that does at one of its lexemes, at its end, or inside a block of properties, whose
text is scanned by itself but counted as a part of the whole.
-/

namespace RowRecipe

open Outcome

variable {source : List Char} {ls : List Lexeme} {fault : GrammarFault}

/-- The issue is that something else was wanted, and its message ends with what was found. -/
structure GrammarIssue.Finds (issue : GrammarIssue) (found : String) : Prop where
  expected : ∃ wanted kind, issue = .expected wanted kind
  message : ∃ first, issue.message = first ++ ", found " ++ found

theorem GrammarIssue.finds_expected (wanted : Wanted) (found : Option Lexeme.Kind) :
    (expected wanted found).Finds (foundText found) :=
  ⟨⟨wanted, found, rfl⟩, wanted.message found, rfl⟩

/-- Behind a first part of the source is a block of properties, with a text between its braces. -/
def HasPropertyText (source before inner : List Char) : Prop :=
  ∃ ls block after, Lexeme.scan source 0 = .ok ls ∧ Lexeme.HasProperties ls block ∧
    block.text = '{' :: (inner ++ ['}']) ∧ block.start = Text.byteLength before ∧
    source = before ++ block.text ++ after

/-- Where the fault of a source is, and what it is. A source that can be scanned has its fault at a
lexeme, at its end, at the name of a pragma, or inside a block of properties. -/
inductive Reported (source : List Char) : GrammarFault → Prop
  | lexical {failure : Lexeme.Failure} (hscan : Lexeme.scan source 0 = .error failure) :
      Reported source ⟨failure.start, .lexical failure.issue⟩
  | lexeme {ls : List Lexeme} {l : Lexeme} {issue : GrammarIssue}
      (hscan : Lexeme.scan source 0 = .ok ls) (hl : l ∈ ls) (hfinds : issue.Finds l.kind.describe) :
      Reported source ⟨l.start, issue⟩
  | sourceEnd {ls : List Lexeme} {issue : GrammarIssue} (hscan : Lexeme.scan source 0 = .ok ls)
      (hfinds : issue.Finds "end of input") : Reported source ⟨Text.byteLength source, issue⟩
  | pragmaName {ls : List Lexeme} {start name : Lexeme} (hscan : Lexeme.scan source 0 = .ok ls)
      (hin : [start, name] <:+: ls) (hstart : start.kind = .pragma)
      (hname : name.kind = .identifier) :
      Reported source ⟨name.start, .unknownPragma name.content⟩
  | innerLexical {before inner : List Char} {failure : Lexeme.Failure}
      (hblock : HasPropertyText source before inner)
      (hscan : Lexeme.scan inner (Text.byteLength (before ++ ['{'])) = .error failure) :
      Reported source ⟨failure.start, .lexical failure.issue⟩
  | innerLexeme {before inner : List Char} {ls : List Lexeme} {l : Lexeme} {issue : GrammarIssue}
      (hblock : HasPropertyText source before inner)
      (hscan : Lexeme.scan inner (Text.byteLength (before ++ ['{'])) = .ok ls) (hl : l ∈ ls)
      (hfinds : issue.Finds l.kind.describe) : Reported source ⟨l.start, issue⟩
  | closingBrace {before inner : List Char} {ls : List Lexeme} {issue : GrammarIssue}
      (hblock : HasPropertyText source before inner)
      (hscan : Lexeme.scan inner (Text.byteLength (before ++ ['{'])) = .ok ls)
      (hfinds : issue.Finds "end of input") :
      Reported source ⟨Text.byteLength (before ++ '{' :: inner), issue⟩

/-- The error is the fault, with the line and the column of the place behind all that is in front of
it. -/
def GrammarError.PointsAt (source : List Char) (e : GrammarError) (fault : GrammarFault) : Prop :=
  e.issue = fault.issue ∧
    ∃ before rest, source = before ++ rest ∧ Position.EndOf before ⟨fault.offset, e.line, e.column⟩

theorem HasPropertyText.source_eq {before inner : List Char}
    (h : HasPropertyText source before inner) :
    ∃ after, source = (before ++ ['{']) ++ inner ++ ('}' :: after) := by
  obtain ⟨ls, block, after, -, -, htext, -, hsource⟩ := h
  refine ⟨after, ?_⟩
  rw [hsource, htext]
  simp only [List.append_assoc, List.cons_append, List.nil_append]

theorem isCut_of_mem {cs first last : List Char} {l : Lexeme}
    (hsource : source = first ++ cs ++ last)
    (hscan : Lexeme.scan cs (Text.byteLength first) = .ok ls) (hl : l ∈ ls) :
    Text.IsCut source l.start :=
  ((Lexeme.laid_of_scan hsource hscan).lie l hl).start_isCut

theorem Reported.isCut (h : Reported source fault) : Text.IsCut source fault.offset := by
  have hwhole : source = [] ++ source ++ [] := (List.append_nil source).symm
  cases h with
  | lexical hscan => exact Lexeme.isCut_of_scan_error hwhole hscan
  | lexeme hscan hl => exact isCut_of_mem hwhole hscan hl
  | sourceEnd => exact ⟨source, [], (List.append_nil source).symm, rfl⟩
  | @pragmaName ls start name hscan hin =>
      exact isCut_of_mem hwhole hscan (hin.subset (by simp))
  | innerLexical hblock hscan =>
      obtain ⟨after, hsource⟩ := hblock.source_eq
      exact Lexeme.isCut_of_scan_error hsource hscan
  | innerLexeme hblock hscan hl =>
      obtain ⟨after, hsource⟩ := hblock.source_eq
      exact isCut_of_mem hsource hscan hl
  | @closingBrace before inner ls issue hblock =>
      obtain ⟨after, hsource⟩ := hblock.source_eq
      rw [List.append_assoc before, List.singleton_append] at hsource
      exact ⟨before ++ '{' :: inner, '}' :: after, hsource, rfl⟩

theorem placed_pointsAt (h : Text.IsCut source fault.offset) :
    (Node.placed source fault).PointsAt source fault := by
  obtain ⟨before, rest, hsource, hoffset⟩ := h
  have hplace := Position.ofOffset_endOf before rest
  rw [← hsource, ← hoffset] at hplace
  exact ⟨rfl, before, rest, hsource, hplace⟩

theorem Lexeme.HasProperties.mono {more : List Lexeme} {block : Lexeme}
    (h : HasProperties ls block) (hin : ls <:+: more) : HasProperties more block := by
  obtain ⟨name, colon, hthree, hrest⟩ := h.announced
  exact ⟨h.isBlock, name, colon, hthree.trans hin, hrest⟩

/-- A block of properties among the lexemes of a source has its text there. -/
theorem hasPropertyText (hscan : Lexeme.scan source 0 = .ok ls) {block : Lexeme}
    (hblock : Lexeme.HasProperties ls block) :
    ∃ before inner, HasPropertyText source before inner ∧
      (block.text.drop 1).dropLast = inner ∧ block.start + 1 = Text.byteLength (before ++ ['{']) ∧
      block.stop - 1 = Text.byteLength (before ++ '{' :: inner) := by
  obtain ⟨name, colon, hthree, -⟩ := hblock.announced
  have hmem : block ∈ ls := hthree.subset (by simp)
  obtain ⟨inner, htext⟩ := (Lexeme.scan_spelled hscan block hmem).block hblock.isBlock
  obtain ⟨before, after, hsource, hstart⟩ := ((Lexeme.laid_of_scan_zero hscan).lie block hmem).place
  refine ⟨before, inner, ⟨ls, block, after, hscan, hblock, htext, hstart, hsource⟩, ?_, ?_, ?_⟩
  · rw [htext, List.drop_one, List.tail_cons, List.dropLast_concat]
  · rw [Text.byteLength_append, hstart]
    rfl
  · rw [Lexeme.stop, htext, hstart, ← List.cons_append, Text.byteLength_append,
      Text.byteLength_append]
    rfl

theorem reported_of_inside (hscan : Lexeme.scan source 0 = .ok ls) {block : Lexeme}
    (hblock : Lexeme.HasProperties ls block) (h : Ending.FaultInside block fault) :
    Reported source fault := by
  obtain ⟨before, inner, htext, hinner, hstart, hstop⟩ := hasPropertyText hscan hblock
  cases h with
  | lexical hfail =>
      rw [hinner, hstart] at hfail
      exact .innerLexical htext hfail
  | missed hread hmissed =>
      rw [hinner, hstart] at hread
      cases hmissed with
      | lexeme hl wanted => exact .innerLexeme htext hread hl (GrammarIssue.finds_expected wanted _)
      | atEnd wanted =>
          rw [hstop]
          exact .closingBrace htext hread (GrammarIssue.finds_expected wanted none)

theorem reported_of_faulty (hscan : Lexeme.scan source 0 = .ok ls) {run : Run}
    (hrun : run ∈ Run.split (Text.byteLength source) [] ls)
    (h : run.ending.Faulty run.lexemes fault) : Reported source fault := by
  have hin : run.lexemes <:+: ls := Run.lexemes_infix run hrun
  cases h with
  | missed hmissed =>
      cases hmissed with
      | lexeme hl wanted =>
          exact .lexeme hscan (hin.subset hl) (GrammarIssue.finds_expected wanted _)
      | atEnd wanted =>
          rcases Run.ending_of_mem_split run hrun with hending | ⟨l, hl, hending⟩
          · rw [hending]
            exact .sourceEnd hscan (GrammarIssue.finds_expected wanted none)
          · rw [hending]
            exact .lexeme hscan hl (GrammarIssue.finds_expected wanted _)
  | pragma hpair hstart hname => exact .pragmaName hscan (hpair.trans hin) hstart hname
  | inside hblock hinside => exact reported_of_inside hscan (hblock.mono hin) hinside

namespace Node

theorem ofSource_of_scan_error {failure : Lexeme.Failure}
    (h : Lexeme.scan source 0 = .error failure) :
    ofSource source = .error ⟨failure.start, .lexical failure.issue⟩ := by
  rw [ofSource, h]

theorem ofSource_reported (h : ofSource source = .error fault) : Reported source fault := by
  cases hscan : Lexeme.scan source 0 with
  | error failure =>
      obtain rfl := Except.error.inj ((ofSource_of_scan_error hscan).symm.trans h)
      exact .lexical hscan
  | ok ls =>
      simp only [ofSource, hscan] at h
      rcases bind_eq_error.mp h with hread | ⟨children, -, hdone⟩
      · obtain ⟨run, hrun, hfault⟩ := exists_of_mapM_eq_error hread
        exact reported_of_faulty hscan hrun ((ofRun_settles source run).error hfault)
      · cases hdone

/-- An error of the grammar is an error of the recipe, and it points at a fault of the source; at the
failure of the scan whenever that fails. -/
theorem parse_error_reported (source : String) :
    (∀ e, parse source = .error e →
      SymbolTable.compile source = .error (.grammar e) ∧
        ∃ fault, Reported source.toList fault ∧ e.PointsAt source.toList fault) ∧
      ∀ failure, Lexeme.scan source.toList 0 = .error failure →
        ∃ e, parse source = .error e ∧
          e.PointsAt source.toList ⟨failure.start, .lexical failure.issue⟩ := by
  constructor
  · intro e h
    constructor
    · rw [SymbolTable.compile, h]
      rfl
    · unfold parse at h
      cases hread : ofSource source.toList with
      | ok tree =>
          rw [hread] at h
          cases h
      | error fault =>
          rw [hread] at h
          obtain rfl := Except.error.inj h
          have hreported := ofSource_reported hread
          exact ⟨fault, hreported, placed_pointsAt hreported.isCut⟩
  · intro failure h
    refine ⟨_, ?_, placed_pointsAt (Reported.lexical h).isCut⟩
    rw [parse, ofSource_of_scan_error h]
    rfl

-- The closing brace is on the second line, and the character of two bytes in front of it is one column.
example : parse "set prop:\x7b\n  a='é', b=\x7d" = .error ⟨2, 11, .expected .propertyValue none⟩ := by
  cbv

end Node

end RowRecipe
