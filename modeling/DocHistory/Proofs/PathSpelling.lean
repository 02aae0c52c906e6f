import Mathlib.Data.List.TakeWhile
import DocHistory.Version
import DocHistory.Proofs.NumeralText

/-! Spellings of paths: a piece for each step, in which any character of a name or key may stand
behind a backslash and an index may begin with zeros. Reading accepts the spellings and nothing
else, each for the path of its steps, because a piece ends where the dot or bracket of the next one
stands. -/
namespace DocHistory

theorem okMap {ε α β : Type} {x : Except ε α} {f : α → β} {b : β} :
    x.map f = .ok b ↔ ∃ a, x = .ok a ∧ f a = b := by
  cases x <;> simp [Except.map]

namespace Path

inductive Item (special : List Char) where
  | plain (c : Char) (own : c ∉ special)
  | escaped (c : Char)

namespace Item
variable {special : List Char}

def char : Item special → Char
  | plain c _ => c
  | escaped c => c

def chars : Item special → List Char
  | plain c _ => [c]
  | escaped c => ['\\', c]

end Item

def nameMarks : List Char := ['.', '[', '\\']

def keyMarks : List Char := ['"', '\\']

inductive Piece where
  | name (items : List (Item nameMarks)) (filled : items ≠ [])
  | index (digits : List (Fin 10)) (filled : digits ≠ [])
      (fits : Radix.value 10 (digits.map Fin.val) < 2 ^ 64)
  | key (items : List (Item keyMarks))

def digitChars (digits : List (Fin 10)) : List Char := (digits.map Fin.val).map Radix.digitChar

namespace Piece

def step : Piece → Segment
  | name items _ => .property (String.ofList (items.map Item.char))
  | index digits _ _ => .index (Radix.value 10 (digits.map Fin.val)).toUInt64
  | key items => .key (String.ofList (items.map Item.char))

def chars (first : Bool) : Piece → List Char
  | name items _ => (if first then [] else ['.']) ++ items.flatMap Item.chars
  | index digits _ _ => '[' :: (digitChars digits ++ [']'])
  | key items => '[' :: '"' :: (items.flatMap Item.chars ++ ['"', ']'])

end Piece

def spell : Bool → List Piece → List Char
  | _, [] => []
  | first, piece :: pieces => piece.chars first ++ spell false pieces

structure Spells (pieces : List Piece) (s : String) (p : Path) : Prop where
  text : spell true pieces = s.toList
  steps : pieces.map Piece.step = p.segments

def StepEnds (rest : List Char) : Prop := ∀ c ∈ rest.head?, c = '.' ∨ c = '['

theorem spellEnds (pieces : List Piece) : StepEnds (spell false pieces) := by
  cases pieces with
  | nil => exact nofun
  | cons piece pieces =>
    intro c head
    cases piece <;> obtain rfl := Option.some.inj head
    case name => exact .inl rfl
    all_goals exact .inr rfl

theorem nameScanned (items : List (Item nameMarks)) {rest : List Char} (ends : StepEnds rest) :
    scanName (items.flatMap Item.chars ++ rest) = .ok (items.map Item.char, rest) := by
  induction items with
  | nil =>
    cases rest with
    | nil => rfl
    | cons c cs =>
      rcases ends c rfl with rfl | rfl <;> simp [scanName]
  | cons item items ih =>
    rw [List.flatMap_cons, List.append_assoc, List.map_cons]
    cases item with
    | escaped c => simp [Item.chars, Item.char, scanName, ih, bind, Except.bind]
    | plain c own =>
      simp only [nameMarks, List.mem_cons, List.not_mem_nil, or_false, not_or] at own
      obtain ⟨dot, bracket, slash⟩ := own
      rw [Item.chars, List.singleton_append, scanName.eq_3 c _ (fun _ _ same => absurd same slash)]
      simp [slash, dot, bracket, ih, Item.char, bind, Except.bind]

theorem keyScanned (items : List (Item keyMarks)) (rest : List Char) :
    scanKey (items.flatMap Item.chars ++ '"' :: rest) = .ok (items.map Item.char, rest) := by
  induction items with
  | nil => simp [scanKey]
  | cons item items ih =>
    rw [List.flatMap_cons, List.append_assoc, List.map_cons]
    cases item with
    | escaped c => simp [Item.chars, Item.char, scanKey, ih, bind, Except.bind]
    | plain c own =>
      simp only [keyMarks, List.mem_cons, List.not_mem_nil, or_false, not_or] at own
      obtain ⟨quote, slash⟩ := own
      rw [Item.chars, List.singleton_append, scanKey.eq_3 c _ (fun _ _ same => absurd same slash)]
      simp [slash, quote, ih, Item.char, bind, Except.bind]

theorem nameItems {cs name rest : List Char} (scanned : scanName cs = .ok (name, rest)) :
    ∃ items : List (Item nameMarks), items.flatMap Item.chars ++ rest = cs ∧
      items.map Item.char = name := by
  fun_induction scanName cs generalizing name rest with
  | case1 =>
    cases scanned
    exact ⟨[], rfl, rfl⟩
  | case2 c cs ih =>
    obtain ⟨⟨later, left⟩, inner, same⟩ := okBind.1 scanned
    cases same
    obtain ⟨items, rfl, rfl⟩ := ih inner
    exact ⟨.escaped c :: items, rfl, rfl⟩
  | case3 => cases scanned
  | case4 =>
    cases scanned
    exact ⟨[], rfl, rfl⟩
  | case5 c cs _ slash mark ih =>
    obtain ⟨⟨later, left⟩, inner, same⟩ := okBind.1 scanned
    cases same
    obtain ⟨items, rfl, rfl⟩ := ih inner
    exact ⟨.plain c (by simp_all [nameMarks]) :: items, rfl, rfl⟩

theorem keyItems {cs key rest : List Char} (scanned : scanKey cs = .ok (key, rest)) :
    ∃ items : List (Item keyMarks), items.flatMap Item.chars ++ '"' :: rest = cs ∧
      items.map Item.char = key := by
  fun_induction scanKey cs generalizing key rest with
  | case1 => cases scanned
  | case2 c cs ih =>
    obtain ⟨⟨later, left⟩, inner, same⟩ := okBind.1 scanned
    cases same
    obtain ⟨items, rfl, rfl⟩ := ih inner
    exact ⟨.escaped c :: items, rfl, rfl⟩
  | case3 => cases scanned
  | case4 =>
    cases scanned
    exact ⟨[], rfl, rfl⟩
  | case5 c cs _ slash quote ih =>
    obtain ⟨⟨later, left⟩, inner, same⟩ := okBind.1 scanned
    cases same
    obtain ⟨items, rfl, rfl⟩ := ih inner
    exact ⟨.plain c (by simp_all [keyMarks]) :: items, rfl, rfl⟩

theorem digitsBelow (digits : List (Fin 10)) : ∀ d ∈ digits.map Fin.val, d < 10 := by
  intro d listed
  obtain ⟨digit, _, rfl⟩ := List.mem_map.1 listed
  exact digit.isLt

theorem digitsPlain (digits : List (Fin 10)) :
    ∀ c ∈ digitChars digits, Radix.isDigit c = true ∧ c ≠ '"' := by
  intro c listed
  obtain ⟨d, member, rfl⟩ := List.mem_map.1 listed
  have each : ∀ d < 10, Radix.isDigit (Radix.digitChar d) = true ∧ Radix.digitChar d ≠ '"' := by
    decide
  exact each d (digitsBelow digits d member)

theorem digitFrom {c : Char} (digit : Radix.isDigit c = true) :
    ∃ d : Fin 10, Radix.digitChar d.val = c := by
  have range : '0' ≤ c ∧ c ≤ '9' := of_decide_eq_true digit
  have low : 48 ≤ c.toNat := range.1
  have high : c.toNat ≤ 57 := range.2
  refine ⟨⟨c.toNat - 48, by omega⟩, ?_⟩
  rw [Radix.digitChar, if_pos (by omega), Nat.add_sub_cancel' low, Char.ofNat_toNat]

theorem digitsFrom {cs : List Char} (each : ∀ c ∈ cs, Radix.isDigit c = true) :
    ∃ digits : List (Fin 10), digitChars digits = cs := by
  induction cs with
  | nil => exact ⟨[], rfl⟩
  | cons c cs ih =>
    obtain ⟨own, others⟩ := List.forall_mem_cons.1 each
    obtain ⟨d, rfl⟩ := digitFrom own
    obtain ⟨digits, rfl⟩ := ih others
    exact ⟨d :: digits, rfl⟩

theorem digitsRead {digits : List (Fin 10)} (filled : digits ≠ []) :
    Radix.read? 10 (digitChars digits) = some (Radix.value 10 (digits.map Fin.val)) :=
  Radix.readFound (by decide) (by simpa using filled) (digitsBelow digits)

theorem indexRead {digits : List (Fin 10)} (filled : digits ≠ [])
    (fits : Radix.value 10 (digits.map Fin.val) < 2 ^ 64) (rest : List Char) :
    readIndex (digitChars digits ++ ']' :: rest) =
      .ok ((Piece.index digits filled fits).step, ']' :: rest) := by
  have each : ∀ c ∈ digitChars digits, Radix.isDigit c = true := fun c listed =>
    (digitsPlain digits c listed).1
  rw [readIndex, List.takeWhile_append_of_pos each, List.dropWhile_append_of_pos each,
    List.takeWhile_cons_of_neg (by decide), List.dropWhile_cons_of_neg (by decide),
    List.append_nil, digitsRead filled]
  have room : Radix.value 10 (digits.map Fin.val) < UInt64.size := fits
  simp [Option.filter, room, Piece.step]

theorem indexDigits {cs rest : List Char} {s : Segment} (read : readIndex cs = .ok (s, rest)) :
    ∃ digits some fits, digitChars digits ++ rest = cs ∧
      (Piece.index digits some fits).step = s := by
  have each : ∀ c ∈ cs.takeWhile Radix.isDigit, Radix.isDigit c = true :=
    fun c => List.mem_takeWhile_imp
  obtain ⟨digits, front⟩ := digitsFrom each
  rw [readIndex, ← front] at read
  split at read
  · rename_i n value
    cases read
    obtain ⟨found, fits⟩ := Option.filter_eq_some_iff.1 value
    have filled : digits ≠ [] := by
      rintro rfl
      cases found
    obtain rfl := Option.some.inj ((digitsRead filled).symm.trans found)
    refine ⟨digits, filled, of_decide_eq_true fits, ?_, rfl⟩
    rw [front, List.takeWhile_append_dropWhile]
  · cases read

theorem bracketClosed {s t : Segment} {cs rest : List Char}
    (closed : closeBracket (s, cs) = .ok (t, rest)) : cs = ']' :: rest ∧ s = t := by
  unfold closeBracket at closed
  split at closed
  · rename_i same
    cases same
    cases closed
    exact ⟨rfl, rfl⟩
  · cases closed

theorem readSegmentsStep (first : Bool) (c : Char) (cs : List Char) :
    readSegments first (c :: cs) = readStep first c cs >>= fun step =>
      (readSegments false step.2).map (step.1 :: ·) := by
  rw [readSegments]
  split
  · rename_i read
    rw [read]
    rfl
  · rename_i read
    rw [read]
    rfl

theorem nameRead {items : List (Item nameMarks)} (filled : items ≠ []) {rest : List Char}
    (ends : StepEnds rest) : readName (items.flatMap Item.chars ++ rest) =
      .ok ((Piece.name items filled).step, rest) := by
  rw [readName, nameScanned items ends]
  simp [bind, Except.bind, filled, Piece.step]

theorem nameLeads {items : List (Item nameMarks)} (filled : items ≠ []) :
    ∃ c cs, items.flatMap Item.chars = c :: cs ∧ c ≠ '[' ∧ c ≠ '.' := by
  obtain ⟨item, items, rfl⟩ := List.exists_cons_of_ne_nil filled
  cases item with
  | escaped c => exact ⟨'\\', c :: items.flatMap Item.chars, rfl, by decide, by decide⟩
  | plain c own =>
    simp only [nameMarks, List.mem_cons, not_or] at own
    exact ⟨c, items.flatMap Item.chars, rfl, own.2.1, own.1⟩

theorem stepRead (first : Bool) (piece : Piece) {rest : List Char} (ends : StepEnds rest) :
    ∃ c cs, piece.chars first ++ rest = c :: cs ∧
      readStep first c cs = .ok (piece.step, rest) := by
  cases piece with
  | name items filled =>
    have read := nameRead filled ends
    cases first with
    | true =>
      obtain ⟨c, cs, same, bracket, dot⟩ := nameLeads filled
      rw [same, List.cons_append] at read
      refine ⟨c, cs ++ rest, by simp [Piece.chars, same], ?_⟩
      rwa [readStep, if_neg bracket, if_neg dot, if_pos rfl]
    | false =>
      refine ⟨'.', _, rfl, ?_⟩
      rwa [readStep, if_neg (by decide), if_pos rfl, if_neg (by decide)]
  | index digits filled fits =>
    refine ⟨'[', digitChars digits ++ ']' :: rest, by simp [Piece.chars], ?_⟩
    rw [readStep, if_pos rfl, readBracket.eq_2, indexRead filled fits]
    · rfl
    · intro cs same
      cases found : digitChars digits with
      | nil => simp [found] at same
      | cons c ds =>
        rw [found] at same
        have plain := digitsPlain digits c (found ▸ List.mem_cons_self)
        exact plain.2 (List.cons.inj same).1
  | key items =>
    refine ⟨'[', '"' :: (items.flatMap Item.chars ++ '"' :: ']' :: rest), by simp [Piece.chars], ?_⟩
    rw [readStep, if_pos rfl, readBracket, keyScanned]
    simp [bind, Except.bind, closeBracket, Piece.step]

theorem bracketPiece {cs rest : List Char} {s : Segment}
    (read : readBracket cs = .ok (s, rest)) (first : Bool) :
    ∃ piece : Piece, piece.chars first ++ rest = '[' :: cs ∧ piece.step = s := by
  unfold readBracket at read
  split at read
  · obtain ⟨⟨key, left⟩, scanned, closed⟩ := okBind.1 read
    obtain ⟨rfl, rfl⟩ := bracketClosed closed
    obtain ⟨items, rfl, rfl⟩ := keyItems scanned
    exact ⟨.key items, by simp [Piece.chars], rfl⟩
  · obtain ⟨⟨step, left⟩, found, closed⟩ := okBind.1 read
    obtain ⟨rfl, rfl⟩ := bracketClosed closed
    obtain ⟨digits, filled, fits, rfl, rfl⟩ := indexDigits found
    exact ⟨.index digits filled fits, by simp [Piece.chars], rfl⟩

theorem namePiece {cs rest : List Char} {s : Segment} (read : readName cs = .ok (s, rest)) :
    ∃ items filled, items.flatMap Item.chars ++ rest = cs ∧ (Piece.name items filled).step = s := by
  obtain ⟨⟨name, left⟩, scanned, named⟩ := okBind.1 read
  obtain ⟨items, rfl, rfl⟩ := nameItems scanned
  dsimp only at named
  split at named
  · cases named
  · rename_i long
    cases named
    exact ⟨items, by simpa using long, rfl, rfl⟩

theorem stepPiece {first : Bool} {c : Char} {cs rest : List Char} {s : Segment}
    (read : readStep first c cs = .ok (s, rest)) :
    ∃ piece : Piece, piece.chars first ++ rest = c :: cs ∧ piece.step = s := by
  unfold readStep at read
  split at read
  · rename_i bracket
    exact bracket ▸ bracketPiece read first
  · split at read
    · rename_i dot
      cases first with
      | true => cases read
      | false =>
        obtain ⟨items, filled, rfl, rfl⟩ := namePiece read
        exact ⟨.name items filled, by simp [Piece.chars, dot], rfl⟩
    · cases first with
      | false => cases read
      | true =>
        obtain ⟨items, filled, same, rfl⟩ := namePiece read
        exact ⟨.name items filled, by simp [Piece.chars, same], rfl⟩

theorem segmentsRead (first : Bool) (pieces : List Piece) :
    readSegments first (spell first pieces) = .ok (pieces.map Piece.step) := by
  induction pieces generalizing first with
  | nil => rw [spell, readSegments, List.map_nil]
  | cons piece pieces ih =>
    obtain ⟨c, cs, same, read⟩ := stepRead first piece (spellEnds pieces)
    rw [spell, same, readSegmentsStep]
    exact okBind.2 ⟨_, read, okMap.2 ⟨_, ih false, rfl⟩⟩

theorem segmentPieces {first : Bool} {cs : List Char} {ss : List Segment}
    (read : readSegments first cs = .ok ss) :
    ∃ pieces, spell first pieces = cs ∧ pieces.map Piece.step = ss := by
  induction ss generalizing first cs with
  | nil =>
    cases cs with
    | nil => exact ⟨[], rfl, rfl⟩
    | cons c cs =>
      rw [readSegmentsStep] at read
      obtain ⟨_, _, rest⟩ := okBind.1 read
      obtain ⟨_, _, same⟩ := okMap.1 rest
      cases same
  | cons s ss ih =>
    cases cs with
    | nil =>
      rw [readSegments] at read
      cases read
    | cons c cs =>
      rw [readSegmentsStep] at read
      obtain ⟨⟨t, left⟩, step, rest⟩ := okBind.1 read
      obtain ⟨later, found, same⟩ := okMap.1 rest
      cases same
      obtain ⟨pieces, rfl, rfl⟩ := ih found
      obtain ⟨piece, written, rfl⟩ := stepPiece step
      exact ⟨piece :: pieces, written, rfl⟩

theorem spelledRead {pieces : List Piece} {s : String} {p : Path} (spells : Spells pieces s p) :
    Path.ofText s = .ok p := by
  rw [Path.ofText, ofChars, ← spells.text, segmentsRead, spells.steps]
  rfl

theorem readSpelled {s : String} {p : Path} (read : Path.ofText s = .ok p) :
    ∃ pieces, Spells pieces s p := by
  rw [Path.ofText] at read
  cases found : ofChars s.toList with
  | error fault =>
    rw [found] at read
    cases read
  | ok path =>
    rw [found] at read
    cases read
    obtain ⟨ss, segments, same⟩ := okMap.1 found
    cases same
    obtain ⟨pieces, text, steps⟩ := segmentPieces segments
    exact ⟨pieces, text, steps⟩

theorem itemsInjective {special : List Char} (slash : '\\' ∈ special) :
    Function.Injective fun items : List (Item special) => items.flatMap Item.chars := by
  intro items
  induction items with
  | nil =>
    intro others same
    cases others with
    | nil => rfl
    | cons other others => cases other <;> cases same
  | cons item items ih =>
    intro others same
    cases others with
    | nil => cases item <;> cases same
    | cons other others =>
      have whole : item.chars ++ items.flatMap Item.chars =
          other.chars ++ others.flatMap Item.chars := same
      cases item with
      | plain c own =>
        cases other with
        | plain d _ =>
          obtain ⟨rfl, rest⟩ := List.cons.inj whole
          rw [ih rest]
        | escaped d => exact absurd ((List.cons.inj whole).1 ▸ slash) own
      | escaped c =>
        cases other with
        | plain d own => exact absurd ((List.cons.inj whole).1 ▸ slash) own
        | escaped d =>
          obtain ⟨_, whole⟩ := List.cons.inj whole
          obtain ⟨rfl, rest⟩ := List.cons.inj whole
          rw [ih rest]

theorem digitsInjective : Function.Injective digitChars := by
  have each : ∀ d e : Fin 10, Radix.digitChar d.val = Radix.digitChar e.val → d = e := by decide
  intro digits others same
  rw [digitChars, digitChars, List.map_map, List.map_map] at same
  exact (List.map_inj_right each).1 same

theorem pieceUnique {first : Bool} {piece other : Piece} (step : piece.step = other.step)
    (same : piece.chars first = other.chars first) : piece = other := by
  cases piece with
  | name items =>
    cases other with
    | name others =>
      obtain rfl : items = others := itemsInjective (by decide) (List.append_cancel_left same)
      rfl
    | _ => cases step
  | index digits =>
    cases other with
    | index others =>
      obtain rfl : digits = others :=
        digitsInjective (List.append_cancel_right (List.cons.inj same).2)
      rfl
    | _ => cases step
  | key items =>
    cases other with
    | key others =>
      have inner := (List.cons.inj (List.cons.inj same).2).2
      obtain rfl : items = others :=
        itemsInjective (by decide) (List.append_cancel_right inner)
      rfl
    | _ => cases step

theorem spellInjective (first : Bool) : Function.Injective (spell first) := by
  intro pieces
  induction pieces generalizing first with
  | nil =>
    intro others same
    cases others with
    | nil => rfl
    | cons other others =>
      obtain ⟨c, cs, lead, _⟩ := stepRead first other (spellEnds others)
      rw [spell, spell, lead] at same
      cases same
  | cons piece pieces ih =>
    intro others same
    obtain ⟨c, cs, lead, read⟩ := stepRead first piece (spellEnds pieces)
    cases others with
    | nil =>
      rw [spell, spell, lead] at same
      cases same
    | cons other others =>
      obtain ⟨d, ds, lead', read'⟩ := stepRead first other (spellEnds others)
      rw [spell, spell] at same
      -- Reading the text tells the step and where it ends.
      obtain ⟨rfl, rfl⟩ := List.cons.inj (lead.symm.trans (same.trans lead'))
      obtain ⟨step, rest⟩ := Prod.mk.inj (Except.ok.inj (read.symm.trans read'))
      rw [rest] at same
      rw [pieceUnique step (List.append_cancel_right same), ih false rest]

end Path
end DocHistory
