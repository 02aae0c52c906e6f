import DocHistory.Proofs.NumberText

/-! Texts of trees. A tree is read back from its text if its numbers are, if it holds nothing that
was unreadable, and if it is nested less deep than the reader goes: by induction on the tree,
whatever comma or bracket follows. -/
namespace DocHistory.Wire

theorem hexRead {n : Nat} (fits : n < 16 ^ 4) (rest : List Char) :
    readHex (Radix.padded 16 4 n ++ rest) = some (n, rest) := by
  have four : (Radix.padded 16 4 n).length = 4 := Radix.paddedLength fits
  have read : Radix.read? 16 (Radix.padded 16 4 n) = some n :=
    Radix.readPadded (by decide) (by decide) 4 n
  generalize Radix.padded 16 4 n = ds at four read
  match ds, four with
  | [a, b, c, d], _ => simp [readHex, read]

theorem controlRead {c : Char} (control : c < ' ') (rest : List Char) :
    readUnit c.toNat rest = (some c, rest) ∧ c.toNat < 16 ^ 4 := by
  have small : c.toNat < 32 := control
  have plain : isHighSurrogate c.toNat = false ∧ isLowSurrogate c.toNat = false := by
    simp only [isHighSurrogate, isLowSurrogate, decide_eq_false_iff_not]
    omega
  refine ⟨?_, by omega⟩
  unfold readUnit
  rw [plain.1, plain.2, if_neg Bool.false_ne_true, if_neg Bool.false_ne_true, Char.ofNat_toNat]

theorem plainRead {c : Char} (quote : c ≠ '"') (slash : c ≠ '\\') (visible : ¬ c < ' ') (n : Nat)
    (whole : Bool) (done rest : List Char) :
    readString (n + 1) whole done (c :: rest) = readString n whole (c :: done) rest := by
  simp [readString, slash, visible]

theorem escapeSome (c : Char) : 0 < (escapeChar c).length := by
  unfold escapeChar
  repeat' split
  all_goals simp

theorem escapeRead (c : Char) (n : Nat) (done rest : List Char) :
    readString (n + 1) true done (escapeChar c ++ rest) = readString n true (c :: done) rest := by
  by_cases quoted : c = '"' ∨ c = '\\'
  · rw [escapeChar, if_pos quoted]
    rcases quoted with rfl | rfl <;> simp [readString, letterEscape]
  · obtain ⟨quote, slash⟩ := not_or.1 quoted
    by_cases lettered : c ∈ ['\n', '\r', '\t', '\x08', '\x0c']
    · simp only [List.mem_cons, List.not_mem_nil, or_false] at lettered
      rcases lettered with rfl | rfl | rfl | rfl | rfl <;>
        simp [escapeChar, readString, letterEscape]
    · simp only [List.mem_cons, List.not_mem_nil, or_false, not_or] at lettered
      obtain ⟨line, feed, tab, back, form⟩ := lettered
      rw [escapeChar, if_neg quoted, if_neg line, if_neg feed, if_neg tab, if_neg back, if_neg form]
      split
      · rename_i control
        obtain ⟨unit, fits⟩ := controlRead control rest
        simp [readString, hexRead fits, unit]
      · rename_i visible
        exact plainRead quote slash visible n true done rest

theorem stringRead (cs : List Char) {n : Nat} (enough : (cs.flatMap escapeChar).length < n)
    (done rest : List Char) : readString n true done (cs.flatMap escapeChar ++ '"' :: rest) =
      some (some (String.ofList (done.reverse ++ cs)), rest) := by
  induction cs generalizing n done with
  | nil =>
    cases n with
    | zero => exact absurd enough (Nat.not_lt_zero _)
    | succ n => simp [readString]
  | cons c cs ih =>
    rw [List.flatMap_cons, List.length_append] at enough
    have filled : 0 < (escapeChar c).length := escapeSome c
    cases n with
    | zero => exact absurd enough (Nat.not_lt_zero _)
    | succ n =>
      rw [List.flatMap_cons, List.append_assoc, escapeRead, ih (by omega), List.reverse_cons,
        List.append_assoc, List.singleton_append]

/-- Trees that a text can hold: numbers read back, nothing was unreadable, and at most so many lists
and records stand inside each other. -/
inductive Legible : Nat → Wire → Prop where
  | null (depth : Nat) : Legible depth null
  | bool (depth : Nat) (b : Bool) : Legible depth (bool b)
  | number (depth : Nat) {n : Number} (own : n.Legible) : Legible depth (number n)
  | text (depth : Nat) (s : String) : Legible depth (text s)
  | list {depth : Nat} {items : List Wire} (each : ∀ w ∈ items, Legible depth w) :
      Legible (depth + 1) (list items)
  | record {depth : Nat} {members : List (String × Wire)}
      (each : ∀ m ∈ members, Legible depth m.2) :
      Legible (depth + 1) (record members)

/-- The reader finds the tree in its text, in fewer steps than the text has characters. -/
def Found (depth : Nat) (w : Wire) : Prop := ∀ n rest, w.chars.length < n → ValueEnds rest →
  readValue n depth (w.chars ++ rest) = (w, some rest)

theorem foundAfter {depth : Nat} {w : Wire} (read : ∀ n rest, ValueEnds rest →
    readValue (w.chars.length + n + 1) depth (w.chars ++ rest) = (w, some rest)) :
    Found depth w := by
  intro n rest enough ends
  obtain ⟨n, rfl⟩ := Nat.exists_eq_add_of_lt enough
  exact read n rest ends

theorem charsLead {depth : Nat} {w : Wire} (legible : Legible depth w) :
    ∃ c cs, w.chars = c :: cs ∧ c ∉ [' ', '\n', '\t', '\r'] ∧ c ≠ ']' := by
  cases legible with
  | null => exact ⟨'n', _, rfl, by decide⟩
  | bool _ b => cases b <;> exact ⟨_, _, rfl, by decide⟩
  | number _ own =>
    rename_i n
    have ends : ValueEnds [] := nofun
    have read := Number.charsRead own ends 0 0
    have numeral := Number.charsNumeral n
    rw [chars]
    cases split : n.chars with
    | nil =>
      rw [split] at read
      cases read
    | cons c cs =>
      obtain ⟨solid, apart⟩ := numeralApart (numeral c (split ▸ List.mem_cons_self))
      exact ⟨c, cs, rfl, solid, fun same => apart (by simp [same])⟩
  | text => exact ⟨'"', _, rfl, by decide⟩
  | list =>
    rename_i items _
    cases items <;> exact ⟨'[', _, rfl, by decide⟩
  | record =>
    rename_i members _
    cases members <;> exact ⟨'\x7b', _, rfl, by decide⟩

theorem laterItemsEnd (ws : List Wire) (rest : List Char) : ValueEnds (laterItems ws ++ rest) := by
  intro c head
  cases ws with
  | nil =>
    obtain rfl := Option.some.inj head
    decide
  | cons w ws =>
    obtain rfl := Option.some.inj head
    decide

theorem itemsFound {depth : Nat} {w : Wire} {ws : List Wire} (each : ∀ v ∈ w :: ws, Found depth v)
    {n : Nat} (enough : w.chars.length + (laterItems ws).length < n) (done : List Wire)
    (rest : List Char) : readItems n depth done (w.chars ++ (laterItems ws ++ rest)) =
      (done.reverse ++ w :: ws, some rest) := by
  induction ws generalizing w n done with
  | nil =>
    cases n with
    | zero => exact absurd enough (Nat.not_lt_zero _)
    | succ n =>
      rw [laterItems, List.length_singleton] at enough
      rw [readItems, each w List.mem_cons_self n _ (by omega) (laterItemsEnd [] rest)]
      simp [laterItems, blanksKept]
  | cons v vs ih =>
    cases n with
    | zero => exact absurd enough (Nat.not_lt_zero _)
    | succ n =>
      obtain ⟨own, others⟩ := List.forall_mem_cons.1 each
      have length : (laterItems (v :: vs)).length =
          v.chars.length + (laterItems vs).length + 1 := by
        simp [laterItems]
      rw [readItems, own n _ (by omega) (laterItemsEnd (v :: vs) rest)]
      have next := ih others (n := n) (by omega) (w :: done)
      simp [laterItems, blanksKept, next]

theorem laterMembersEnd (ms : List (String × Wire)) (rest : List Char) :
    ValueEnds (laterMembers ms ++ rest) := by
  intro c head
  cases ms with
  | nil =>
    obtain rfl := Option.some.inj head
    decide
  | cons m ms =>
    obtain rfl := Option.some.inj head
    decide

theorem textFront (s : String) (rest : List Char) :
    textChars s ++ rest = '"' :: (s.toList.flatMap escapeChar ++ '"' :: rest) := by
  simp [textChars]

theorem quotedRead (s : String) (rest : List Char) :
    readString (s.toList.flatMap escapeChar ++ '"' :: rest).length.succ true []
      (s.toList.flatMap escapeChar ++ '"' :: rest) = some (some s, rest) := by
  have enough : (s.toList.flatMap escapeChar).length <
      (s.toList.flatMap escapeChar ++ '"' :: rest).length.succ := by
    rw [List.length_append]
    omega
  rw [stringRead s.toList enough, List.reverse_nil, List.nil_append, String.ofList_toList]

theorem readText (n depth : Nat) (s : String) (rest : List Char) :
    readValue (n + 1) depth (textChars s ++ rest) = (text s, some rest) := by
  rw [textFront, readValue, blanksKept (by decide)]
  simp only [quotedRead]

theorem readBrackets (n depth : Nat) {c : Char} {cs : List Char}
    (solid : c ∉ [' ', '\n', '\t', '\r']) (filled : c ≠ ']') :
    readValue (n + 1) depth ('[' :: c :: cs) =
      (atDepth depth (list (readItems n (depth - 1) [] (c :: cs)).1),
        (readItems n (depth - 1) [] (c :: cs)).2) := by
  rw [readValue, blanksKept (by decide)]
  simp only [blanksKept solid]
  split
  · rename_i same
    exact absurd (List.cons.inj same).1 filled
  · rfl

theorem readBraces (n depth : Nat) (k : String) (rest : List Char) :
    readValue (n + 1) depth ('\x7b' :: (textChars k ++ rest)) =
      (atDepth depth (ofMembers (readMembers n (depth - 1) [] (textChars k ++ rest)).1),
        (readMembers n (depth - 1) [] (textChars k ++ rest)).2) := by
  have quote : '"' ∉ [' ', '\n', '\t', '\r'] := by decide
  rw [textFront, readValue, blanksKept (by decide)]
  simp only [blanksKept quote]
  rfl

section
variable {depth : Nat} {w : Wire} (found : Found depth w) {n : Nat} (enough : w.chars.length < n)
  (k : String) (done : List (Option String × Wire)) (rest : List Char)
include found enough

theorem lastMember :
    readMembers (n + 1) depth done (textChars k ++ ':' :: (w.chars ++ '\x7d' :: rest)) =
      (((some k, w) :: done).reverse, some rest) := by
  have ends : ValueEnds ('\x7d' :: rest) := laterMembersEnd [] rest
  rw [textFront, readMembers, blanksKept (by decide)]
  simp only [quotedRead]
  rw [blanksKept (by decide)]
  simp only [found n _ enough ends]
  rw [blanksKept (by decide)]
  rfl

theorem nextMember (m : String × Wire) (ms : List (String × Wire)) :
    readMembers (n + 1) depth done
        (textChars k ++ ':' :: (w.chars ++ (laterMembers (m :: ms) ++ rest))) =
      readMembers n depth ((some k, w) :: done)
        (textChars m.1 ++ ':' :: (m.2.chars ++ (laterMembers ms ++ rest))) := by
  have ends := laterMembersEnd (m :: ms) rest
  have front : laterMembers (m :: ms) ++ rest =
      ',' :: (textChars m.1 ++ ':' :: (m.2.chars ++ (laterMembers ms ++ rest))) := by
    simp [laterMembers]
  rw [front] at ends ⊢
  rw [textFront, readMembers, blanksKept (by decide)]
  simp only [quotedRead]
  rw [blanksKept (by decide)]
  simp only [found n _ enough ends]
  rw [blanksKept (by decide)]
  rfl

end

theorem membersFound {depth : Nat} {k : String} {w : Wire} {ms : List (String × Wire)}
    (each : ∀ m ∈ (k, w) :: ms, Found depth m.2) {n : Nat}
    (enough : (textChars k).length + 1 + w.chars.length + (laterMembers ms).length < n)
    (done : List (Option String × Wire)) (rest : List Char) :
    readMembers n depth done (textChars k ++ ':' :: (w.chars ++ (laterMembers ms ++ rest))) =
      (done.reverse ++ ((k, w) :: ms).map fun m => (some m.1, m.2), some rest) := by
  induction ms generalizing k w n done with
  | nil =>
    have own : Found depth w := each (k, w) List.mem_cons_self
    cases n with
    | zero => exact absurd enough (Nat.not_lt_zero _)
    | succ n =>
      have last := lastMember own (n := n) (by omega) k done rest
      simpa [laterMembers] using last
  | cons m ms ih =>
    obtain ⟨own, others⟩ := List.forall_mem_cons.1 each
    cases n with
    | zero => exact absurd enough (Nat.not_lt_zero _)
    | succ n =>
      have length : (laterMembers (m :: ms)).length =
          (textChars m.1).length + 1 + m.2.chars.length + (laterMembers ms).length + 1 := by
        simp [laterMembers]
        omega
      have short : w.chars.length < n := by omega
      rw [nextMember own short, ih others (by omega)]
      simp

theorem namedAll (ms : List (String × Wire)) :
    ofMembers (ms.map fun m => (some m.1, m.2)) = record ms := by
  have all : named (ms.map fun m => (some m.1, m.2)) = (ms, true) := by
    induction ms with
    | nil => rfl
    | cons m ms ih => simp [named, ih]
  rw [ofMembers, all]

theorem legibleFound {depth : Nat} {w : Wire} (legible : Legible depth w) : Found depth w := by
  induction legible with
  | null depth => exact foundAfter fun _ _ _ => rfl
  | bool depth b => exact foundAfter fun _ _ _ => by cases b <;> rfl
  | number depth own => exact foundAfter fun _ _ ends => Number.charsRead own ends _ depth
  | text depth s => exact foundAfter fun _ rest _ => readText _ depth s rest
  | @list depth items each ih =>
    refine foundAfter fun n rest _ => ?_
    cases items with
    | nil => rfl
    | cons w ws =>
      obtain ⟨c, cs, lead, solid, filled⟩ := charsLead (each w List.mem_cons_self)
      have items := itemsFound ih (n := (list (w :: ws)).chars.length + n)
        (by simp [chars]; omega) [] rest
      rw [lead, List.cons_append] at items
      have front : (list (w :: ws)).chars ++ rest =
          '[' :: c :: (cs ++ (laterItems ws ++ rest)) := by simp [chars, lead]
      rw [front, readBrackets _ _ solid filled, Nat.add_sub_cancel, items]
      rfl
  | @record depth members each ih =>
    refine foundAfter fun n rest _ => ?_
    cases members with
    | nil => rfl
    | cons m ms =>
      have members := membersFound ih (n := (record (m :: ms)).chars.length + n)
        (by simp [chars]; omega) [] rest
      have front : (record (m :: ms)).chars ++ rest =
          '\x7b' :: (textChars m.1 ++ ':' :: (m.2.chars ++ (laterMembers ms ++ rest))) := by
        simp [chars]
      rw [front, readBraces, Nat.add_sub_cancel, members]
      rw [List.reverse_nil, List.nil_append, namedAll]
      rfl

theorem renderRead {w : Wire} (legible : Legible 127 w) : ofText w.render = (w, true) := by
  refine ofTextWhole.2 ⟨[], ?_, rfl⟩
  have read := legibleFound legible (2 * w.chars.length + 2) [] (by omega) nofun
  rwa [List.append_nil] at read

end DocHistory.Wire
