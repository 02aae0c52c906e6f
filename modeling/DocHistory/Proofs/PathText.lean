import DocHistory.Proofs.PathSpelling

/-! Texts of paths. Printing spells a path without a backslash or a zero that could be left out, and
so in the fewest characters. A path is read back from its text exactly if its property names are not
empty. -/
namespace DocHistory.Path

def Named (p : Path) : Prop := ∀ s ∈ p.segments, s ≠ .property ""

def Item.Terse {special : List Char} : Item special → Prop
  | plain _ _ => True
  | escaped c => c ∈ special

def Piece.Terse : Piece → Prop
  | name items _ => ∀ item ∈ items, item.Terse
  | index digits _ _ => digits.length = 1 ∨ digits.head? ≠ some 0
  | key items => ∀ item ∈ items, item.Terse

structure Shortens (terse : Prop) (written printed : List Char) : Prop where
  same : terse → printed = written
  shorter : ¬ terse → printed.length < written.length

namespace Shortens
variable {p q : Prop} {written printed : List Char}

theorem iff (shortens : Shortens p written printed) : printed = written ↔ p := by
  refine ⟨fun same => ?_, shortens.same⟩
  by_contra wordy
  exact Nat.lt_irrefl _ (same ▸ shortens.shorter wordy)

theorem around (shortens : Shortens p written printed) (front back : List Char) :
    Shortens p (front ++ (written ++ back)) (front ++ (printed ++ back)) := by
  refine ⟨fun terse => by rw [shortens.same terse], fun wordy => ?_⟩
  have shorter := shortens.shorter wordy
  simp only [List.length_append]
  omega

theorem append (first : Shortens p written printed) {written' printed' : List Char}
    (second : Shortens q written' printed') :
    Shortens (p ∧ q) (written ++ written') (printed ++ printed') := by
  refine ⟨fun ⟨terse, terse'⟩ => by rw [first.same terse, second.same terse'], fun wordy => ?_⟩
  simp only [List.length_append]
  by_cases terse : p
  · have shorter := second.shorter fun terse' => wordy ⟨terse, terse'⟩
    rw [first.same terse]
    omega
  · have shorter := first.shorter terse
    by_cases terse' : q
    · rw [second.same terse']
      omega
    · have shorter' := second.shorter terse'
      omega

theorem flatMap {α : Type} {terse : α → Prop} {written printed : α → List Char}
    (each : ∀ a, Shortens (terse a) (written a) (printed a)) (as : List α) :
    Shortens (∀ a ∈ as, terse a) (as.flatMap written) (as.flatMap printed) := by
  induction as with
  | nil => exact ⟨fun _ => rfl, fun wordy => absurd (List.forall_mem_nil _) wordy⟩
  | cons a as ih =>
    rw [List.forall_mem_cons]
    exact (each a).append ih

end Shortens

theorem itemsShorten {special : List Char} (escape : Char → List Char)
    (escapes : ∀ c, escape c = if c ∈ special then ['\\', c] else [c])
    (items : List (Item special)) : Shortens (∀ item ∈ items, item.Terse)
      (items.flatMap Item.chars) ((items.map Item.char).flatMap escape) := by
  rw [List.flatMap_map]
  refine Shortens.flatMap (fun item => ?_) items
  rw [escapes]
  cases item with
  | plain c own => exact ⟨fun _ => if_neg own, fun wordy => absurd trivial wordy⟩
  | escaped c =>
    refine ⟨fun needed => if_pos needed, fun spare => ?_⟩
    have plain : c ∉ special := spare
    rw [Item.char, if_neg plain]
    exact Nat.one_lt_two

theorem digitsShorten {digits : List (Fin 10)} (filled : digits ≠ []) :
    Shortens (digits.length = 1 ∨ digits.head? ≠ some 0) (digitChars digits)
      (Radix.text 10 (Radix.value 10 (digits.map Fin.val))) := by
  have below := digitsBelow digits
  refine ⟨fun terse => ?_, fun wordy => ?_⟩
  · rw [Radix.text, Radix.digitsValue (by decide) below (by simpa using filled) ?_]
    · rfl
    · rw [List.length_map, List.head?_map]
      refine terse.imp id fun solid zero => solid ?_
      obtain ⟨d, head, value⟩ := Option.map_eq_some_iff.1 zero
      obtain rfl : d = 0 := Fin.ext value
      exact head
  · obtain ⟨long, zero⟩ := not_or.1 wordy
    rw [not_not] at zero
    obtain ⟨d, digits, rfl⟩ := List.exists_cons_of_ne_nil filled
    obtain rfl : d = 0 := Option.some.inj zero
    have value : Radix.value 10 ((0 :: digits).map Fin.val) = Radix.value 10 (digits.map Fin.val) :=
      Radix.valueZeros 10 1 (digits.map Fin.val)
    obtain ⟨width, length⟩ : ∃ width, digits.length = width + 1 :=
      Nat.exists_eq_add_one_of_ne_zero fun absent => long (by rw [List.length_cons, absent])
    have small := Radix.valueBelow (digitsBelow digits)
    rw [List.length_map, length] at small
    have short := Radix.digitsLength small
    rw [value, Radix.text, List.length_map, digitChars, List.length_map, List.length_map,
      List.length_cons]
    omega

def printStep (first : Bool) (s : Segment) : List Char := if first then s.chars else s.laterChars

def printSteps : Bool → List Segment → List Char
  | _, [] => []
  | first, s :: ss => printStep first s ++ printSteps false ss

theorem laterPrinted (ss : List Segment) : printSteps false ss = ss.flatMap Segment.laterChars := by
  induction ss with
  | nil => rfl
  | cons s ss ih => rw [printSteps, ih, List.flatMap_cons, printStep, if_neg Bool.false_ne_true]

theorem charsPrinted (p : Path) : p.chars = printSteps true p.segments := by
  obtain ⟨segments⟩ := p
  cases segments with
  | nil => rfl
  | cons s ss => rw [printSteps, laterPrinted, printStep, if_pos rfl, chars]

theorem pieceShortens (first : Bool) (piece : Piece) :
    Shortens piece.Terse (piece.chars first) (printStep first piece.step) := by
  cases piece with
  | name items =>
    have shortens := itemsShorten Segment.escapeName
      (fun c => by simp [Segment.escapeName, nameMarks]) items
    have whole := shortens.around (if first then [] else ['.']) []
    cases first <;> simpa [Piece.chars, Piece.step, Piece.Terse, printStep, Segment.chars,
      Segment.laterChars] using whole
  | index digits filled fits =>
    have shortens := (digitsShorten filled).around ['['] [']']
    have value : (Radix.value 10 (digits.map Fin.val)).toUInt64.toNat =
        Radix.value 10 (digits.map Fin.val) := Nat.mod_eq_of_lt fits
    have printed : printStep first (Piece.index digits filled fits).step =
        '[' :: (Radix.text 10 (Radix.value 10 (digits.map Fin.val)) ++ [']']) := by
      cases first <;> rw [← value] <;> rfl
    rw [printed]
    exact shortens
  | key items =>
    have shortens := itemsShorten Segment.escapeKey
      (fun c => by simp [Segment.escapeKey, keyMarks]) items
    have whole := shortens.around ['[', '"'] ['"', ']']
    cases first <;> simpa [Piece.chars, Piece.step, Piece.Terse, printStep, Segment.chars,
      Segment.laterChars] using whole

theorem spellShortens (first : Bool) (pieces : List Piece) :
    Shortens (∀ piece ∈ pieces, piece.Terse) (spell first pieces)
      (printSteps first (pieces.map Piece.step)) := by
  induction pieces generalizing first with
  | nil => exact ⟨fun _ => rfl, fun wordy => absurd (List.forall_mem_nil _) wordy⟩
  | cons piece pieces ih =>
    rw [List.forall_mem_cons]
    exact (pieceShortens first piece).append (ih false)

theorem printedTerse {pieces : List Piece} {s : String} {p : Path} (spells : Spells pieces s p) :
    p.text = s ↔ ∀ piece ∈ pieces, piece.Terse := by
  have shortens := spellShortens true pieces
  rw [spells.steps, ← charsPrinted, spells.text] at shortens
  rw [← shortens.iff, text, ← String.toList_inj, String.toList_ofList]

theorem itemFrom (special : List Char) (c : Char) :
    ∃ item : Item special, item.char = c ∧ item.Terse := by
  by_cases marked : c ∈ special
  · exact ⟨.escaped c, rfl, marked⟩
  · exact ⟨.plain c marked, rfl, trivial⟩

theorem itemsFrom (special : List Char) (cs : List Char) :
    ∃ items : List (Item special), items.map Item.char = cs ∧ ∀ item ∈ items, item.Terse := by
  induction cs with
  | nil => exact ⟨[], rfl, List.forall_mem_nil _⟩
  | cons c cs ih =>
    obtain ⟨item, rfl, terse⟩ := itemFrom special c
    obtain ⟨items, rfl, others⟩ := ih
    exact ⟨item :: items, rfl, List.forall_mem_cons.2 ⟨terse, others⟩⟩

theorem pieceFrom {s : Segment} (named : s ≠ .property "") :
    ∃ piece : Piece, piece.step = s ∧ piece.Terse := by
  cases s with
  | property name =>
    obtain ⟨items, same, terse⟩ := itemsFrom nameMarks name.toList
    have filled : items ≠ [] := by
      rintro rfl
      exact named (congrArg _ (String.toList_eq_nil_iff.1 same.symm))
    refine ⟨.name items filled, ?_, terse⟩
    rw [Piece.step, same, String.ofList_toList]
  | index position =>
    have each : ∀ c ∈ Radix.text 10 position.toNat, Radix.isDigit c = true :=
      Radix.textDigit (by decide) (by decide) _
    obtain ⟨digits, same⟩ := digitsFrom each
    have filled : digits ≠ [] := by
      rintro rfl
      exact Radix.textSome _ _ same.symm
    have value : Radix.value 10 (digits.map Fin.val) = position.toNat := by
      have read := digitsRead filled
      rw [same, Radix.readText (by decide) (by decide)] at read
      exact (Option.some.inj read).symm
    have fits : Radix.value 10 (digits.map Fin.val) < 2 ^ 64 := value ▸ position.toNat_lt
    have terse := (digitsShorten filled).iff.1 (by rw [value, same])
    refine ⟨.index digits filled fits, ?_, terse⟩
    rw [Piece.step, value]
    exact congrArg Segment.index UInt64.ofNat_toNat
  | key name =>
    obtain ⟨items, same, terse⟩ := itemsFrom keyMarks name.toList
    refine ⟨.key items, ?_, terse⟩
    rw [Piece.step, same, String.ofList_toList]

theorem piecesFrom {ss : List Segment} (named : ∀ s ∈ ss, s ≠ .property "") :
    ∃ pieces : List Piece, pieces.map Piece.step = ss ∧ ∀ piece ∈ pieces, piece.Terse := by
  induction ss with
  | nil => exact ⟨[], rfl, List.forall_mem_nil _⟩
  | cons s ss ih =>
    obtain ⟨own, others⟩ := List.forall_mem_cons.1 named
    obtain ⟨piece, rfl, terse⟩ := pieceFrom own
    obtain ⟨pieces, rfl, later⟩ := ih others
    exact ⟨piece :: pieces, rfl, List.forall_mem_cons.2 ⟨terse, later⟩⟩

theorem textRead {p : Path} (named : p.Named) : Path.ofText p.text = .ok p := by
  obtain ⟨pieces, steps, terse⟩ := piecesFrom named
  have same := (spellShortens true pieces).same terse
  rw [steps, ← charsPrinted] at same
  exact spelledRead ⟨by rw [text, String.toList_ofList, same], steps⟩

theorem pieceNamed (piece : Piece) : piece.step ≠ .property "" := by
  cases piece with
  | name items filled =>
    intro same
    have empty := String.toList_eq_nil_iff.2 (Segment.property.inj same)
    rw [String.toList_ofList, List.map_eq_nil_iff] at empty
    exact filled empty
  | _ => exact nofun

theorem readNamed {s : String} {p : Path} (read : Path.ofText s = .ok p) : p.Named := by
  obtain ⟨pieces, spells⟩ := readSpelled read
  rw [Named, ← spells.steps]
  intro step listed
  obtain ⟨piece, _, rfl⟩ := List.mem_map.1 listed
  exact pieceNamed piece

theorem namedReadBack (p : Path) : (Path.ofText p.text = .ok p ↔ p.Named) ∧
    ∀ q : Path, p.Named → q.Named → p.text = q.text → p = q := by
  refine ⟨⟨readNamed, textRead⟩, fun q named other same => ?_⟩
  have read := textRead named
  rw [same, textRead other] at read
  exact (Except.ok.inj read).symm

def marked : Path := ⟨[.property "a.b[\\", .key "]\"", .property "[", .index 0]⟩

theorem markedReadBack : marked.Named ∧ Path.ofText marked.text = .ok marked := by
  have named : marked.Named := by simp [Named, marked]
  exact ⟨named, (namedReadBack marked).1.2 named⟩

theorem readsSpellings (s : String) (p : Path) :
    (Path.ofText s = .ok p ↔ ∃! pieces, Spells pieces s p) ∧
      ∀ pieces, Spells pieces s p → Path.ofText p.text = .ok p ∧
        (p.text = s ↔ ∀ piece ∈ pieces, piece.Terse) := by
  refine ⟨⟨fun read => ?_, fun ⟨_, spells, _⟩ => spelledRead spells⟩, fun pieces spells =>
    ⟨textRead (readNamed (spelledRead spells)), printedTerse spells⟩⟩
  obtain ⟨pieces, spells⟩ := readSpelled read
  refine ⟨pieces, spells, fun others same => spellInjective true ?_⟩
  rw [same.text, spells.text]

def wordy : List Piece :=
  [.name [.plain 'a' (by decide), .escaped 'b'] (by decide), .index [0, 0, 7] (by decide) (by decide)]

theorem wordyRead : Spells wordy "a\\b[007]" ⟨[.property "ab", .index 7]⟩ ∧
    Path.ofText "a\\b[007]" = .ok ⟨[.property "ab", .index 7]⟩ ∧
    Path.text ⟨[.property "ab", .index 7]⟩ ≠ "a\\b[007]" := by
  have spells : Spells wordy "a\\b[007]" ⟨[.property "ab", .index 7]⟩ := ⟨by decide, by decide⟩
  have reads := readsSpellings "a\\b[007]" ⟨[.property "ab", .index 7]⟩
  refine ⟨spells, spelledRead spells, fun same => ?_⟩
  have terse := ((reads.2 wordy spells).2.1 same) _ List.mem_cons_self
  have needed : 'b' ∈ nameMarks := terse (.escaped 'b') (by simp)
  exact absurd needed (by decide)

end DocHistory.Path
