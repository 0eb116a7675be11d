import Mathlib.Data.List.Forall2
import RowRecipe.Proofs.Lexeme.Endings
import RowRecipe.Proofs.Lexeme.Order

/-!
The layout of a text: what stands between its lexemes, and where they stand. A comment reaches to the
end of its line, so it has a newline behind it or nothing at all; in front of any other lexeme there
are blanks only. Apart from their places, the lexemes of a text do not depend on where it starts.
-/

namespace RowRecipe

namespace Text

theorem drop_length_takeWhile (p : Char → Bool) (cs : List Char) :
    cs.drop (cs.takeWhile p).length = cs.dropWhile p := by
  have hparts := List.takeWhile_append_dropWhile (p := p) (l := cs)
  calc cs.drop (cs.takeWhile p).length
      = (cs.takeWhile p ++ cs.dropWhile p).drop (cs.takeWhile p).length := by rw [hparts]
    _ = cs.dropWhile p := List.drop_left

theorem slice_of_append {source front part back : List Char} (h : source = front ++ part ++ back) :
    slice source (byteLength front) (byteLength (front ++ part)) = part := by
  rw [slice, h, List.append_assoc, dropBytes_byteLength_append, byteLength_append,
    Nat.add_sub_cancel_left, takeBytes_byteLength_append]

/-- A part of a text is made of two parts that meet somewhere in it. -/
theorem slice_append_slice {source : List Char} {start middle stop : Nat} (hstart : IsCut source start)
    (hmiddle : IsCut source middle) (hstop : IsCut source stop) (hle : start ≤ middle)
    (hle' : middle ≤ stop) :
    slice source start middle ++ slice source middle stop = slice source start stop := by
  obtain ⟨first, after, hsource, rfl⟩ := hstart
  obtain ⟨before, last, hbefore, rfl⟩ := hmiddle
  obtain ⟨whole, rest, hwhole, rfl⟩ := hstop
  obtain ⟨a, rfl⟩ := exists_append_of_le (hsource.symm.trans hbefore) hle
  obtain ⟨b, rfl⟩ := exists_append_of_le (hbefore.symm.trans hwhole) hle'
  rw [slice_of_append hbefore, slice_of_append hwhole, List.append_assoc first a b,
    slice_of_append (hwhole.trans (by rw [List.append_assoc first a b]))]

end Text

namespace Lexeme

theorem Pattern.longest_newline (rest : List Char) :
    Pattern.longest ('\n' :: rest) = some (.newline, 1) := by
  simp [Pattern.longest, Pattern.all, Pattern.literal, Pattern.word, Pattern.column, Pattern.string,
    Block.isQuote, Pattern.number, Pattern.unsignedNumber, Pattern.unitLiteral, Pattern.identifier,
    Pattern.name, Pattern.startsName, Pattern.block, Block.length?, Pattern.longer,
    Text.sameIgnoringCase]

variable {source cs : List Char} {base : Nat} {l : Lexeme} {ls more : List Lexeme}

/-- Where a comment has ended, only a newline can be found. -/
theorem kind_of_scan_dropWhile {rest : List Char}
    (h : scan (rest.dropWhile (· != '\n')) base = .ok (l :: more)) : l.kind = .newline := by
  cases htail : rest.dropWhile (· != '\n') with
  | nil =>
      rw [htail] at h
      cases h
  | cons c tail =>
      have hc : c = '\n' := by
        have hhead := List.head?_dropWhile_not (· != '\n') rest
        rw [htail, List.head?_cons] at hhead
        simpa using hhead
      rw [htail, hc, scan_of_found rfl (Pattern.longest_newline tail)] at h
      obtain ⟨found, -, heq⟩ := Outcome.map_eq_ok.mp h
      rw [← (List.cons.inj heq).1]

/-- The first lexeme of a text has a gap in front of it, which is blank unless the lexeme is a newline,
and behind it the other lexemes are found. -/
theorem exists_gap_of_scan (h : scan cs base = .ok (l :: more)) :
    ∃ gap rest, cs = gap ++ (l.text ++ rest) ∧ l.start = base + Text.byteLength gap ∧
      scan rest l.stop = .ok more ∧ (l.kind ≠ .newline → ∀ c ∈ gap, isSkipped c = true) := by
  generalize hfound : l :: more = found at h
  induction h using scan_ok_induction with
  | nil base => cases hfound
  | skip c tail n base found hskip h ih =>
      obtain ⟨gap, rest, hrest, hstart, hmore, hblank⟩ := ih hfound
      refine ⟨(c :: tail).take n ++ gap, rest, ?_, ?_, hmore, fun hkind => ?_⟩
      · rw [List.append_assoc, ← hrest, List.take_append_drop]
      · rw [hstart, Text.byteLength_append, Nat.add_assoc]
      · refine List.forall_mem_append.mpr ⟨?_, hblank hkind⟩
        unfold skip? at hskip
        split at hskip
        · rename_i rest' heq
          obtain rfl := Option.some.inj hskip
          have hdrop : ('/' :: '/' :: rest').drop (2 + (rest'.takeWhile (· != '\n')).length) =
              rest'.dropWhile (· != '\n') := by
            rw [Nat.add_comm]
            exact Text.drop_length_takeWhile _ rest'
          rw [heq, hdrop, ← hfound] at h
          exact (hkind (kind_of_scan_dropWhile h)).elim
        · rename_i heq
          split at hskip
          · rename_i hc
            obtain rfl := Option.some.inj hskip
            obtain ⟨rfl, rfl⟩ := List.cons.inj heq
            exact List.forall_mem_singleton.mpr hc
          · cases hskip
        · cases hskip
  | found c tail kind n base found hskip hlongest h =>
      obtain ⟨rfl, rfl⟩ := List.cons.inj hfound
      exact ⟨[], (c :: tail).drop n, (List.take_append_drop n _).symm, rfl, h,
        fun _ => List.forall_mem_nil _⟩

/-- Between two lexemes that follow one another there are blanks only. -/
def Spaced (source : List Char) (ls : List Lexeme) : Prop :=
  ls.IsChain fun a b => ∀ c ∈ Text.slice source a.stop b.start, isSkipped c = true

/-- All gaps are blank but those in front of newlines. -/
theorem chain_of_scan {first : List Char} (hsource : source = first ++ cs)
    (h : scan cs (Text.byteLength first) = .ok ls) :
    ls.IsChain fun a b => b.kind ≠ .newline →
      ∀ c ∈ Text.slice source a.stop b.start, isSkipped c = true := by
  induction ls generalizing first cs with
  | nil => exact .nil
  | cons l more ih =>
      obtain ⟨gap, rest, rfl, hstart, hmore, -⟩ := exists_gap_of_scan h
      have hsource' : source = (first ++ gap ++ l.text) ++ rest := by
        rw [hsource]
        simp only [List.append_assoc]
      have hstop : l.stop = Text.byteLength (first ++ gap ++ l.text) := by
        rw [stop, hstart, Text.byteLength_append, Text.byteLength_append]
      rw [hstop] at hmore
      have hchain := ih hsource' hmore
      cases more with
      | nil => exact .singleton l
      | cons next others =>
          refine .cons_cons (fun hkind => ?_) hchain
          obtain ⟨gap', rest', hrest, hstart', -, hblank⟩ := exists_gap_of_scan hmore
          rw [hrest, ← List.append_assoc] at hsource'
          rw [hstop, hstart', ← Text.byteLength_append, Text.slice_of_append hsource']
          exact hblank hkind

theorem LiesIn.slice (h : l.LiesIn source) : Text.slice source l.start l.stop = l.text := by
  obtain ⟨first, last, hsource, hstart⟩ := h.place
  rw [stop, hstart, ← Text.byteLength_append]
  exact Text.slice_of_append hsource

/-- The text of the lexeme is the one that its kind asks for, where a node may stand over several
lexemes. -/
structure Spelled (l : Lexeme) : Prop where
  colon : l.kind = .colon → l.text = [':']
  bang : l.kind = .bang → l.text = ['!']
  name : l.kind = .identifier → IsName l.text
  block : l.kind = .block → ∃ inner, l.text = '{' :: (inner ++ ['}'])

theorem scan_spelled (h : scan cs base = .ok ls) : ∀ l ∈ ls, l.Spelled := by
  refine forall_of_scan (fun cs kind n start hlongest => ?_) h
  obtain ⟨p, hmem, hmatch⟩ := Pattern.longest_mem hlongest
  constructor
  · rintro rfl
    obtain rfl : p = Pattern.literal [':'] := by simpa [Pattern.all] using hmem
    exact Pattern.take_of_literal hmatch
  · rintro rfl
    obtain rfl : p = Pattern.literal ['!'] := by simpa [Pattern.all] using hmem
    exact Pattern.take_of_literal hmatch
  · rintro rfl
    obtain rfl : p = Pattern.identifier := by simpa [Pattern.all] using hmem
    exact Pattern.take_of_name hmatch
  · rintro rfl
    obtain rfl : p = Pattern.block := by simpa [Pattern.all] using hmem
    exact Pattern.take_of_block hmatch

/-- The two have the same kind and the same text. -/
structure Same (a b : Lexeme) : Prop where
  kind : a.kind = b.kind
  text : a.text = b.text

namespace Same

variable {a b : Lexeme}

theorem content (h : a.Same b) : a.content = b.content := congrArg String.ofList h.text

theorem symm (h : a.Same b) : b.Same a := ⟨h.kind.symm, h.text.symm⟩

end Same

/-- A text falls into the same lexemes wherever it starts. -/
theorem scan_same (h : scan cs base = .ok ls) (base' : Nat) :
    ∃ ls', scan cs base' = .ok ls' ∧ List.Forall₂ Same ls ls' := by
  have hbase := scan_add base cs 0
  have hbase' := scan_add base' cs 0
  rw [Nat.zero_add] at hbase hbase'
  rw [h] at hbase
  cases hzero : scan cs 0 with
  | error failure =>
      rw [hzero] at hbase
      cases hbase
  | ok found =>
      rw [hzero] at hbase hbase'
      obtain rfl := Except.ok.inj hbase
      refine ⟨_, hbase', ?_⟩
      rw [List.forall₂_map_left_iff, List.forall₂_map_right_iff, List.forall₂_same]
      exact fun l _ => ⟨rfl, rfl⟩

end Lexeme

end RowRecipe
