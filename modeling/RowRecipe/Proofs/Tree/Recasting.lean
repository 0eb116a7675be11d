import RowRecipe.Proofs.Lexeme.Layout
import RowRecipe.Proofs.Tree.Acceptance
import RowRecipe.Proofs.Tree.Runs

/-!
Texts that differ inside of property lists. A block of properties is one lexeme of the text around it,
but its text falls into lexemes of its own, and only these count. So the lexemes of two texts may be
related place by place but for the blocks of properties. Such lexemes are still cut into the same
arguments and the same runs, since the colon in front of a block keeps it with the word in front of
that.
-/

namespace RowRecipe

namespace Lexeme

/-- The three lexemes are a list of properties, with the lexemes that stand in its braces. -/
structure ListsProperties (name colon block : Lexeme) (inner : List Lexeme) : Prop where
  isIdentifier : name.kind = .identifier
  word : name.content = "prop"
  isColon : colon.kind = .colon
  isBlock : block.kind = .block
  scanned : scan (block.text.drop 1).dropLast (block.start + 1) = .ok inner

/-- Each lexeme is related to one of the other text. Blocks of properties need not be, but have the
same lexemes in them. -/
inductive Recast (R : Lexeme → Lexeme → Prop) : List Lexeme → List Lexeme → Prop
  | nil : Recast R [] []
  | cons {l l' : Lexeme} {ls ls' : List Lexeme} (h : R l l') (hmore : Recast R ls ls') :
      Recast R (l :: ls) (l' :: ls')
  | properties {name name' colon colon' block block' : Lexeme} {inner inner' ls ls' : List Lexeme}
      (hname : R name name') (hcolon : R colon colon') (h : ListsProperties name colon block inner)
      (h' : ListsProperties name' colon' block' inner') (hinner : List.Forall₂ Same inner inner')
      (hmore : Recast R ls ls') :
      Recast R (name :: colon :: block :: ls) (name' :: colon' :: block' :: ls')

namespace Recast

variable {R S : Lexeme → Lexeme → Prop} {ls ls' more more' : List Lexeme}

theorem of_forall₂ (h : List.Forall₂ R ls ls') : Recast R ls ls' := by
  induction h with
  | nil => exact .nil
  | cons hl _ ih => exact .cons hl ih

theorem append (h : Recast R ls ls') (hmore : Recast R more more') :
    Recast R (ls ++ more) (ls' ++ more') := by
  induction h with
  | nil => exact hmore
  | cons hl _ ih => exact .cons hl ih
  | properties hname hcolon h h' hinner _ ih => exact .properties hname hcolon h h' hinner ih

theorem mono (h : Recast R ls ls') (hRS : ∀ l l', R l l' → S l l') : Recast S ls ls' := by
  induction h with
  | nil => exact .nil
  | cons hl _ ih => exact .cons (hRS _ _ hl) ih
  | properties hname hcolon h h' hinner _ ih =>
      exact .properties (hRS _ _ hname) (hRS _ _ hcolon) h h' hinner ih

/-- Without blocks there is nothing to recast. -/
theorem forall₂ (h : Recast R ls ls') (hkinds : ∀ l ∈ ls, l.kind ≠ .block) :
    List.Forall₂ R ls ls' := by
  induction h with
  | nil => exact .nil
  | cons hl _ ih => exact .cons hl (ih (List.forall_mem_cons.mp hkinds).2)
  | properties _ _ h => exact absurd h.isBlock (hkinds _ (by simp))

theorem head (h : Recast R ls ls') : Option.Rel R ls.head? ls'.head? := by
  cases h with
  | nil => exact .none
  | cons hl => exact .some hl
  | properties hname => exact .some hname

theorem isEmpty_eq (h : Recast R ls ls') : ls.isEmpty = ls'.isEmpty := by
  cases h <;> rfl

/-- Lexemes can be cut in two where no colon stands in front of the cut or behind it. -/
theorem split (h : Recast R (ls ++ more) more') (hlast : ∀ l ∈ ls.getLast?, l.kind ≠ .colon)
    (hfirst : ∀ l ∈ more.head?, l.kind ≠ .colon) :
    ∃ xs ys, more' = xs ++ ys ∧ Recast R ls xs ∧ Recast R more ys := by
  generalize hwhole : ls ++ more = whole at h
  induction h generalizing ls with
  | nil =>
      obtain ⟨rfl, rfl⟩ := List.append_eq_nil_iff.mp hwhole
      exact ⟨[], [], rfl, .nil, .nil⟩
  | @cons l l' rest rest' hl hrest ih =>
      cases ls with
      | nil =>
          rw [List.nil_append] at hwhole
          exact ⟨[], l' :: rest', rfl, .nil, hwhole ▸ .cons hl hrest⟩
      | cons first ls =>
          obtain ⟨rfl, rfl⟩ := List.cons.inj hwhole
          have hlast' : ∀ l ∈ ls.getLast?, l.kind ≠ .colon := by
            intro l hl
            apply hlast l
            rw [List.getLast?_cons, Option.mem_def.mp hl]
            rfl
          obtain ⟨xs, ys, rfl, hxs, hys⟩ := ih hlast' rfl
          exact ⟨l' :: xs, ys, rfl, .cons hl hxs, hys⟩
  | @properties name name' colon colon' block block' inner inner' rest rest' hname hcolon h h' hinner
      hrest ih =>
      rcases ls with _ | ⟨first, _ | ⟨second, _ | ⟨third, ls⟩⟩⟩
      · rw [List.nil_append] at hwhole
        exact ⟨[], _, rfl, .nil, hwhole ▸ .properties hname hcolon h h' hinner hrest⟩
      · simp only [List.singleton_append, List.cons.injEq] at hwhole
        obtain ⟨rfl, rfl⟩ := hwhole
        exact absurd h.isColon (hfirst colon rfl)
      · simp only [List.cons_append, List.nil_append, List.cons.injEq] at hwhole
        obtain ⟨rfl, rfl, rfl⟩ := hwhole
        exact absurd h.isColon (hlast second rfl)
      · simp only [List.cons_append, List.cons.injEq] at hwhole
        obtain ⟨rfl, rfl, rfl, rfl⟩ := hwhole
        have hlast' : ∀ l ∈ ls.getLast?, l.kind ≠ .colon := by
          intro l hl
          apply hlast l
          rw [List.getLast?_cons_cons, List.getLast?_cons_cons, List.getLast?_cons,
            Option.mem_def.mp hl]
          rfl
        obtain ⟨xs, ys, rfl, hxs, hys⟩ := ih hlast' rfl
        exact ⟨name' :: colon' :: block' :: xs, ys, rfl,
          .properties hname hcolon h h' hinner hxs, hys⟩

/-- Recast lexemes fall into recast runs. -/
theorem split_runs {current current' : List Lexeme} (hkind : ∀ l l', R l l' → l.kind = l'.kind)
    (hcurrent : Recast R current current') (h : Recast R ls ls') (endOffset endOffset' : Nat) :
    List.Forall₂ (fun run run' => Recast R run.lexemes run'.lexemes)
      (Run.split endOffset current ls) (Run.split endOffset' current' ls') := by
  induction h generalizing current current' with
  | nil =>
      rw [Run.split, Run.split, hcurrent.isEmpty_eq]
      split
      · exact .nil
      · exact .cons hcurrent .nil
  | @cons l l' rest rest' hl _ ih =>
      rw [Run.split, Run.split, hcurrent.isEmpty_eq, hkind l l' hl]
      split
      · split
        · exact ih .nil
        · exact .cons hcurrent (ih .nil)
      · exact ih (hcurrent.append (.cons hl .nil))
  | properties hname hcolon h h' hinner _ ih =>
      have hinside : ∀ {name colon block : Lexeme} {inner : List Lexeme},
          ListsProperties name colon block inner → name.kind.isTerminator = false ∧
            colon.kind.isTerminator = false ∧ block.kind.isTerminator = false := by
        intro name colon block inner h
        rw [h.isIdentifier, h.isColon, h.isBlock]
        exact ⟨rfl, rfl, rfl⟩
      have hrun := ih (hcurrent.append (.properties hname hcolon h h' hinner .nil))
      obtain ⟨hfirst, hsecond, hthird⟩ := hinside h
      obtain ⟨hfirst', hsecond', hthird'⟩ := hinside h'
      simpa [Run.split, hfirst, hsecond, hthird, hfirst', hsecond', hthird'] using hrun

theorem runs (hkind : ∀ l l', R l l' → l.kind = l'.kind) (h : Recast R ls ls') :
    List.Forall₂ (Recast R) (runs ls) (runs ls') := by
  rw [← Grammar.lexemes_split 0 ls, ← Grammar.lexemes_split 0 ls', List.forall₂_map_left_iff,
    List.forall₂_map_right_iff]
  exact split_runs hkind .nil h 0 0

end Recast

/-- A list of properties is recast as another one, between the braces of which the same lexemes are. -/
theorem ListsProperties.recast {name colon block : Lexeme} {inner ls' : List Lexeme}
    (h : ListsProperties name colon block inner) (hrecast : Recast Same [name, colon, block] ls') :
    ∃ name' colon' block' inner', ls' = [name', colon', block'] ∧
      ListsProperties name' colon' block' inner' ∧ List.Forall₂ Same inner inner' := by
  rcases hrecast with _ | ⟨hname, _ | ⟨hcolon, _ | @⟨_, block', _, _, hblock, _ | _⟩⟩⟩ |
    ⟨_, _, h₁, h', hsame, _ | _⟩
  · obtain ⟨inner', hinner, hsame⟩ := scan_same h.scanned (block'.start + 1)
    rw [hblock.text] at hinner
    exact ⟨_, _, block', inner', rfl, ⟨hname.kind ▸ h.isIdentifier, hname.content ▸ h.word,
      hcolon.kind ▸ h.isColon, hblock.kind ▸ h.isBlock, hinner⟩, hsame⟩
  · obtain rfl := Except.ok.inj (h.scanned.symm.trans h₁.scanned)
    exact ⟨_, _, _, _, rfl, h', hsame⟩

end Lexeme

namespace Grammar

open Node Lexeme

variable {source : List Char} {ls : List Lexeme} {node : Node} {nodes : List Node}

theorem Separated.last {separator : List Lexeme → Prop} {phrase : Phrase} {P : Lexeme → Prop}
    (h : Separated separator phrase ls nodes)
    (hphrase : ∀ ls node, phrase ls node → ∃ l, ls.getLast? = some l ∧ P l) :
    ∃ l, ls.getLast? = some l ∧ P l := by
  induction h with
  | one hfirst => exact hphrase _ _ hfirst
  | cons _ _ _ ih =>
      obtain ⟨l, hl, hP⟩ := ih
      exact ⟨l, by simp [List.getLast?_append, hl], hP⟩

/-- No argument ends with a colon. -/
theorem Argument.last (h : Argument source ls node) :
    ∃ l, ls.getLast? = some l ∧ l.kind ≠ .colon := by
  have hkinds : ∀ {kind : Kind} {l : Lexeme}, l.kind = kind → kind ≠ .colon → l.kind ≠ .colon :=
    fun h hne => h ▸ hne
  cases h with
  | list hkind hitems =>
      refine hitems.last fun ls node hsingle => ?_
      obtain ⟨l, rfl, hl, -⟩ := hsingle
      have hlisted : ∀ k ∈ listRules, k.1 ≠ .colon := by decide
      exact ⟨l, rfl, hkinds hl (hlisted _ hkind)⟩
  | ranges hranges =>
      refine hranges.last fun ls node hrange => ?_
      obtain ⟨-, -, -, -, hlabel⟩ := hrange
      refine ⟨_, rfl, ?_⟩
      simp only [List.mem_cons, Prod.mk.injEq, List.not_mem_nil, or_false] at hlabel
      rcases hlabel with ⟨hlabel, -⟩ | ⟨hlabel, -⟩
      · exact hkinds hlabel (by decide)
      · exact hkinds hlabel (by decide)
  | quantity hkind => exact ⟨_, rfl, hkinds hkind (by decide)⟩
  | block hkind => exact ⟨_, rfl, hkinds hkind (by decide)⟩
  | name hkind => exact ⟨_, rfl, hkinds hkind (by decide)⟩
  | expression _ _ _ hblock => exact ⟨_, rfl, hkinds hblock (by decide)⟩
  | properties _ _ _ hblock => exact ⟨_, rfl, hkinds hblock (by decide)⟩

theorem Command.last (h : Command source ls node) : ∃ l, ls.getLast? = some l ∧ l.kind ≠ .colon := by
  cases h with
  | @name l hkind => exact ⟨l, rfl, by rw [hkind]; decide⟩
  | @custom _ name _ hkind => exact ⟨name, rfl, by rw [hkind]; decide⟩

theorem Command.kinds (h : Command source ls node) : ∀ l ∈ ls, l.kind ≠ .block := by
  cases h with
  | name hkind => simp [hkind]
  | custom hbang hkind => simp [hbang, hkind]

end Grammar

/-- Arguments are cut off from a phrase in front of them that does not end with a colon. -/
theorem Lexeme.Recast.split_arguments {R : Lexeme → Lexeme → Prop} {source : List Char}
    {ls more more' : List Lexeme} {nodes : List Node} (h : Recast R (ls ++ more) more')
    (hlast : ∃ l, ls.getLast? = some l ∧ l.kind ≠ .colon)
    (harguments : Grammar.Arguments source more nodes) :
    ∃ xs ys, more' = xs ++ ys ∧ Recast R ls xs ∧ Recast R more ys := by
  obtain ⟨last, hl, hkind⟩ := hlast
  refine h.split ?_ fun l hl => (harguments.stops l hl).2
  intro l hmem
  rw [hl] at hmem
  obtain rfl := Option.some.inj hmem
  exact hkind

end RowRecipe
