import Goken.Mac
import Goken.Lib.Lists

/-! Bodies of macros as the lexer splits them into pieces, and what `macdef` stores for
each piece. -/

namespace Goken.Proofs.MacBody
open Goken.Mac Goken.Lex Lib.Lists

section Pieces

/-- A part of a name or a number: a run that the loop of `macdef` reads at once, or a
character that it reads alone. -/
inductive Part where
  | char (c : Char)
  | run (w : Name)

def Part.text : Part → List Char
  | .char c => [c]
  | .run w => w

def partsText (parts : List Part) : List Char := parts.flatMap Part.text

inductive Item where
  | char (c : Char)
  | escape (c : Char)

def Item.text : Item → List Char
  | .char c => [c]
  | .escape c => ['\\', c]

def literalText (quote : Char) (items : List Item) : List Char := quote :: (items.flatMap Item.text ++ [quote])

inductive Piece where
  | name (parts : List Part)
  | number (parts : List Part)
  | literal (quote : Char) (items : List Item)
  | comment (inside : List Char)
  | line (inside : List Char)
  | splice
  | sign (c : Char)

def Piece.text : Piece → List Char
  | .name parts | .number parts => partsText parts
  | .literal quote items => literalText quote items
  | .comment inside => '/' :: '*' :: (inside ++ ['*', '/'])
  | .line inside => '/' :: '/' :: inside
  | .splice => ['\\', '\n']
  | .sign c => [c]

def bodyText (pieces : List Piece) : List Char := pieces.flatMap Piece.text

/-- The character after a piece does not pass the test. -/
def Stops (test : Char → Bool) (after : List Char) : Prop := ∀ c ∈ after.head?, test c = false

def Part.Lexed (after : List Char) : Part → Prop
  | .char c => isdigit c ∨ beyond c ∨ c = '.' ∨ c = '+' ∨ c = '-'
  | .run w => (∃ c rest, w = c :: rest ∧ letter c ∧ ∀ d ∈ rest, wordChar d) ∧ Stops wordChar after

def PartsLexed : List Part → List Char → Prop
  | [], _ => True
  | p :: parts, after => p.Lexed (partsText parts ++ after) ∧ PartsLexed parts after

def Item.Lexed (quote : Char) : Item → Prop
  | .char c => c ≠ quote ∧ c ≠ '\\' ∧ c ≠ '\n'
  | .escape _ => True

/-- The piece is one of the lexer's, before the text `after`. -/
def Piece.Lexed (after : List Char) : Piece → Prop
  | .name parts => PartsLexed parts after ∧ Stops symbolChar after ∧ (∀ c ∈ partsText parts, symbolChar c) ∧
      ∃ c rest, partsText parts = c :: rest ∧ isdigit c = false
  | .number parts => PartsLexed parts after ∧ Stops symbolChar after ∧ ∃ c rest, parts = .char c :: rest ∧ (isdigit c ∨ c = '.')
  | .literal quote items => (quote = '"' ∨ quote = '\'') ∧ ∀ item ∈ items, item.Lexed quote
  | .comment inside => ¬['*', '/'] <:+: inside
  | .line inside => '\n' ∉ inside ∧ ∃ rest, after = '\n' :: rest
  | .splice => True
  | .sign c => symbolChar c = false ∧ c ≠ '"' ∧ c ≠ '\'' ∧ c ≠ '\n' ∧
      (c = '/' → Stops (fun d => d = '/' || d = '*') after) ∧ (c = '\\' → Stops (fun d => d = '\n') after)

def Lexed : List Piece → List Char → Prop
  | [], _ => True
  | p :: pieces, after => p.Lexed (bodyText pieces ++ after) ∧ Lexed pieces after

end Pieces

section Storing

variable (params : List Name)

def escaped (text : List Char) : List Char := text.flatMap fun c => if c = '#' ∧ params ≠ [] then ['#', c] else [c]

/-- What stands for a piece in the body that is stored. -/
def Piece.stored : Piece → List Char
  | .name parts =>
    match params.idxOf? (partsText parts) with
    | some i => ['#', Char.ofNat ('a'.toNat + i)]
    | none => partsText parts
  | .number parts => partsText parts
  | .literal quote items => escaped params (literalText quote items)
  | .comment _ | .line _ | .splice => []
  | .sign c => escaped params [c]

def stored (pieces : List Piece) : List Char := pieces.flatMap (Piece.stored params)

/-- The piece is one that `macdef` reads as the lexer does: a name of letters, digits and
underscores, or one without such a name of a parameter inside, as in a number, each of them
short enough for `symb`; no newline inside a string or a comment; and no `#` where `macdef`
does not double it. -/
def Piece.Kept : Piece → Prop
  | .name parts => ((∃ w, parts = [.run w]) ∨ (partsText parts ∉ params ∧ ∀ w, .run w ∈ parts → w ∉ params)) ∧
      ∀ w, .run w ∈ parts → w.length < NSYMB
  | .number parts => ∀ w, .run w ∈ parts → w ∉ params ∧ w.length < NSYMB
  | .literal quote items => (∀ c, .escape c ∈ items → c ≠ '\n') ∧ (params = [] → '#' ∉ literalText quote items)
  | .comment inside => '\n' ∉ inside
  | .line _ | .splice => True
  | .sign c => params = [] → c ≠ '#'

end Storing

section Turns

variable (s : Name) (params : List Name)

/-- Turns of the loop over a body without an error, and what they append. -/
inductive Goes : Option Char → List Char → List Char → Option Char → List Char → Prop
  | stay (ischr : Option Char) (text : List Char) : Goes ischr text [] ischr text
  | move {ischr ischr' ischr'' : Option Char} {c : Char} {rest text' text'' out out' : List Char}
      (first : ∀ errors, turn s params ischr c rest errors = .ok (.more out ischr' text' errors))
      (shorter : text'.length ≤ rest.length) (more : Goes ischr' text' out' ischr'' text'') :
      Goes ischr (c :: rest) (out ++ out') ischr'' text''

variable {s params} {ischr ischr' ischr'' : Option Char} {text text' text'' out out' : List Char}

theorem Goes.trans (first : Goes s params ischr text out ischr' text') (second : Goes s params ischr' text' out' ischr'' text'') :
    Goes s params ischr text (out ++ out') ischr'' text'' := by
  induction first with
  | stay => exact second
  | move moves shorter _ ih =>
    rw [List.append_assoc]
    exact .move moves shorter (ih second)

theorem Goes.once {c : Char} {rest : List Char}
    (first : ∀ errors, turn s params ischr c rest errors = .ok (.more out ischr' text' errors)) (shorter : text'.length ≤ rest.length) :
    Goes s params ischr (c :: rest) out ischr' text' := by
  have moves := Goes.move first shorter (.stay ischr' text')
  rwa [List.append_nil] at moves

theorem body_goes (goes : Goes s params ischr text out ischr' text') {fuel : Nat} (enough : text.length < fuel) (errors : List Error) :
    ∃ fuel', text'.length < fuel' ∧ body s params fuel ischr text errors = (do
      let (base, rest, errors) ← body s params fuel' ischr' text' errors
      .ok (out ++ base, rest, errors)) := by
  induction goes generalizing fuel with
  | stay ischr text =>
    refine ⟨fuel, enough, ?_⟩
    cases body s params fuel ischr text errors <;> rfl
  | @move ischr ischr' ischr'' c rest text' text'' out out' first shorter more ih =>
    cases fuel with
    | zero => exact absurd enough (Nat.not_lt_zero _)
    | succ fuel =>
      rw [List.length_cons] at enough
      obtain ⟨fuel', enough', runs⟩ := ih (show text'.length < fuel by omega)
      refine ⟨fuel', enough', ?_⟩
      have turns : body s params (fuel + 1) ischr (c :: rest) errors = (do
          let (base, rest, errors) ← body s params fuel ischr' text' errors
          .ok (out ++ base, rest, errors)) := by
        simp only [body, first]
        rfl
      rw [turns, runs]
      cases body s params fuel' ischr'' text'' errors with
      | error e => rfl
      | ok result =>
        simp only [List.append_assoc]
        rfl

theorem getc_some {text : List Char} (some : text ≠ []) : getc text = .ok text := by
  cases text with
  | nil => exact absurd rfl some
  | cons c rest => rfl

theorem escaped_other {c : Char} (other : params = [] ∨ c ≠ '#') : escaped params [c] = [c] := by
  have single : ¬(c = '#' ∧ params ≠ []) := by
    rintro ⟨rfl, some⟩
    exact other.elim some fun ne => ne rfl
  simp [escaped, single]

/-- A turn that appends the character, doubled if it is a `#`. -/
theorem plain_other {out : List Char} {c : Char} {rest : List Char} {errors : List Error} (slash : c ≠ '\\') (newline : c ≠ '\n')
    (more : rest ≠ []) : plain s params out ischr c rest errors = .ok (.more (out ++ escaped params [c]) ischr rest errors) := by
  unfold plain
  rw [if_neg slash, if_neg newline]
  simp only [if_neg more, escaped, List.flatMap_cons, List.flatMap_nil, List.append_nil]

theorem goes_other {c : Char} {rest : List Char} (word : letter c = false) (string : c ≠ '"') (character : c ≠ '\'')
    (comment : c ≠ '/') (slash : c ≠ '\\') (newline : c ≠ '\n') (more : rest ≠ []) :
    Goes s params none (c :: rest) (escaped params [c]) none rest := by
  apply Goes.once _ (Nat.le_refl _)
  intro errors
  have quotes : ¬(c = '"' ∨ c = '\'') := fun either => either.elim string character
  have tests : Mac.turn s params none c rest errors = plain s params [] none c rest errors := by
    unfold Mac.turn
    simp only [word, Bool.false_eq_true, if_false, if_neg quotes, if_neg comment]
  rw [tests, plain_other slash newline more, List.nil_append]

theorem goes_run {w after : List Char} (lexed : Part.Lexed after (.run w)) (short : w.length < NSYMB) (more : after ≠ []) :
    Goes s params none (w ++ after)
      (match params.idxOf? w with
        | some i => ['#', Char.ofNat ('a'.toNat + i)]
        | none => w) none after := by
  obtain ⟨⟨c, rest, rfl, first, inside⟩, stops⟩ := lexed
  rw [List.cons_append]
  apply Goes.once _ (by simp)
  intro errors
  have symb : c :: (rest ++ after).takeWhile wordChar = c :: rest := by rw [takeWhile_stops inside stops]
  have text : (rest ++ after).dropWhile wordChar = after := dropWhile_stops inside stops
  have fits : ¬NSYMB < (c :: rest).length := Nat.not_lt.mpr (Nat.le_of_lt short)
  have whole : ¬(c :: rest).length = NSYMB := Nat.ne_of_lt short
  have ready : getc after = .ok after := getc_some more
  unfold Mac.turn
  simp only [first, if_true, symb, text, if_neg fits, ready, bind, Except.bind, if_neg whole]
  cases params.idxOf? (c :: rest) <;> rfl

theorem goes_splice {after : List Char} (more : after ≠ []) : Goes s params none ('\\' :: '\n' :: after) [] none after := by
  apply Goes.once _ (Nat.le_succ _)
  intro errors
  have tests : Mac.turn s params none '\\' ('\n' :: after) errors = (do
      let text ← getc after
      .ok (.more [] none text errors)) := rfl
  rw [tests, getc_some more]
  rfl

theorem goes_line {inside rest : List Char} (one : '\n' ∉ inside) :
    Goes s params none ('/' :: '/' :: (inside ++ '\n' :: rest)) [] none ('\n' :: rest) := by
  have passes : ∀ c ∈ inside, decide (c ≠ '\n') = true := fun c member => decide_eq_true fun same => one (same ▸ member)
  have text : (inside ++ '\n' :: rest).dropWhile (fun c => decide (c ≠ '\n')) = '\n' :: rest :=
    dropWhile_stops passes (by simp)
  apply Goes.once _ (by simp; omega)
  intro errors
  have tests : Mac.turn s params none '/' ('/' :: (inside ++ '\n' :: rest)) errors = (do
      let text ← getc ((inside ++ '\n' :: rest).dropWhile (fun c => decide (c ≠ '\n')))
      .ok (.more [] none text errors)) := rfl
  rw [tests, text]
  rfl

/-- A comment does not end inside. -/
theorem not_early {c : Char} {inside : List Char} (first : ¬['*', '/'] <:+: c :: inside) (after rest : List Char) (star : c = '*')
    (same : inside ++ '*' :: '/' :: after = '/' :: rest) : False := by
  cases inside with
  | nil => cases same
  | cons d inside =>
    obtain ⟨rfl, _⟩ := List.cons.inj same
    exact first ⟨[], inside, by rw [star]; rfl⟩

theorem bodyComment_ends {inside after : List Char} (first : ¬['*', '/'] <:+: inside) (one : '\n' ∉ inside) (more : after ≠ []) :
    bodyComment (inside ++ '*' :: '/' :: after) = .ok (after, false) := by
  induction inside with
  | nil =>
    simp only [List.nil_append, bodyComment, getc_some more]
    rfl
  | cons c inside ih =>
    have later := ih (fun within => first (within.trans (List.suffix_cons c inside).isInfix)) fun member => one (List.mem_cons_of_mem c member)
    have newline : c ≠ '\n' := fun same => one (same ▸ List.mem_cons_self)
    rw [List.cons_append, bodyComment.eq_4 _ _ (not_early first after) newline, later]

theorem goes_comment {inside after : List Char} (first : ¬['*', '/'] <:+: inside) (one : '\n' ∉ inside) (more : after ≠ []) :
    Goes s params none ('/' :: '*' :: (inside ++ '*' :: '/' :: after)) [] none after := by
  apply Goes.once _ (by simp; omega)
  intro errors
  have tests : Mac.turn s params none '/' ('*' :: (inside ++ '*' :: '/' :: after)) errors =
      bodyComment (inside ++ '*' :: '/' :: after) >>= fun ended =>
        .ok (.more [] none ended.1 (errors ++ if ended.2 then [.commentAndNewline s] else [])) := rfl
  rw [tests, bodyComment_ends first one more]
  show Except.ok (Turn.more [] none after (errors ++ [])) = _
  rw [List.append_nil]

theorem goes_slash {after : List Char} (stops : Stops (fun d => d = '/' || d = '*') after) (more : after ≠ []) :
    Goes s params none ('/' :: after) ['/'] none after := by
  apply Goes.once _ (Nat.le_refl _)
  intro errors
  cases after with
  | nil => exact absurd rfl more
  | cons d rest =>
    have other := stops d rfl
    simp only [Bool.or_eq_false_iff, decide_eq_false_iff_not] at other
    have quotes : ¬('/' = '"' ∨ '/' = '\'') := by decide
    have letters : ¬letter '/' = true := by decide
    unfold Mac.turn
    simp only [if_neg letters, if_neg quotes, if_true]
    split
    next impossible => cases impossible
    next line => exact absurd (List.cons.inj line).1 other.1
    next comment => exact absurd (List.cons.inj comment).1 other.2
    next => rfl

theorem plain_backslash {ischr : Option Char} {out rest : List Char} {errors : List Error} (stops : Stops (fun d => d = '\n') rest)
    (more : rest ≠ []) : plain s params out ischr '\\' rest errors = .ok (.more (out ++ ['\\']) ischr rest errors) := by
  cases rest with
  | nil => exact absurd rfl more
  | cons d rest =>
    have other := of_decide_eq_false (stops d rfl)
    unfold plain
    simp only [if_true]
    split
    next impossible => cases impossible
    next newline => exact absurd (List.cons.inj newline).1 other
    next => rfl

theorem goes_backslash {after : List Char} (stops : Stops (fun d => d = '\n') after) (more : after ≠ []) :
    Goes s params none ('\\' :: after) ['\\'] none after := by
  apply Goes.once _ (Nat.le_refl _)
  intro errors
  have tests : Mac.turn s params none '\\' after errors = plain s params [] none '\\' after errors := rfl
  rw [tests, plain_backslash stops more, List.nil_append]

end Turns

section Strings

variable {s : Name} {params : List Name} {quote : Char}

theorem goes_char {c : Char} {rest : List Char} (slash : c ≠ '\\') (newline : c ≠ '\n') (more : rest ≠ []) :
    Goes s params (some quote) (c :: rest) (escaped params [c]) (if c = quote then none else some quote) rest := by
  apply Goes.once _ (Nat.le_refl _)
  intro errors
  have tests : Mac.turn s params (some quote) c rest errors =
      plain s params [] (if c = quote then none else some quote) c rest errors := by
    unfold Mac.turn
    simp only [if_neg slash]
  rw [tests, plain_other slash newline more, List.nil_append]

theorem escaped_append (left right : List Char) : escaped params (left ++ right) = escaped params left ++ escaped params right :=
  List.flatMap_append

theorem goes_escape {c : Char} {rest : List Char} (newline : c ≠ '\n') (stops : Stops (fun d => d = '\n') rest) (more : rest ≠ []) :
    Goes s params (some quote) ('\\' :: c :: rest) (escaped params ['\\', c]) (some quote) rest := by
  apply Goes.once _ (Nat.le_succ _)
  intro errors
  have tests : Mac.turn s params (some quote) '\\' (c :: rest) errors = plain s params ['\\'] (some quote) c rest errors := rfl
  have pair : escaped params ['\\', c] = ['\\'] ++ escaped params [c] := by
    have first : escaped params ['\\'] = ['\\'] := escaped_other (Or.inr (by decide))
    rw [← first, ← escaped_append]
    rfl
  rw [tests, pair]
  by_cases slash : c = '\\'
  · rw [slash, plain_backslash stops more, escaped_other (Or.inr (by decide))]
  · exact plain_other slash newline more

theorem stops_items {items : List Item} {after : List Char} (lexed : ∀ item ∈ items, item.Lexed quote) (visible : quote ≠ '\n') :
    Stops (fun d => d = '\n') (items.flatMap Item.text ++ quote :: after) := by
  intro d head
  apply decide_eq_false
  cases items with
  | nil =>
    obtain rfl : quote = d := Option.some.inj head
    exact visible
  | cons item items =>
    cases item with
    | char c =>
      obtain rfl : c = d := Option.some.inj head
      exact (lexed _ List.mem_cons_self).2.2
    | escape c =>
      obtain rfl : '\\' = d := Option.some.inj head
      decide

theorem goes_items {items : List Item} {after : List Char} (quotes : quote = '"' ∨ quote = '\'') (lexed : ∀ item ∈ items, item.Lexed quote)
    (one : ∀ c, .escape c ∈ items → c ≠ '\n') (more : after ≠ []) :
    Goes s params (some quote) (items.flatMap Item.text ++ quote :: after) (escaped params (items.flatMap Item.text ++ [quote])) none after := by
  have visible : quote ≠ '\n' ∧ quote ≠ '\\' ∧ quote ≠ '#' := by
    rcases quotes with rfl | rfl <;> decide
  induction items with
  | nil =>
    have close : Goes s params (some quote) (quote :: after) (escaped params [quote]) (if quote = quote then none else some quote) after :=
      goes_char visible.2.1 visible.1 more
    rwa [if_pos rfl] at close
  | cons item items ih =>
    have rest := ih (fun item member => lexed item (List.mem_cons_of_mem _ member)) fun c member => one c (List.mem_cons_of_mem _ member)
    have some : items.flatMap Item.text ++ quote :: after ≠ [] := by simp
    rw [List.flatMap_cons, List.append_assoc, List.append_assoc, escaped_append]
    apply Goes.trans _ rest
    cases item with
    | char c =>
      obtain ⟨other, slash, newline⟩ := lexed _ List.mem_cons_self
      have inside : Goes s params (Option.some quote) (c :: (items.flatMap Item.text ++ quote :: after)) (escaped params [c])
          (if c = quote then none else Option.some quote) (items.flatMap Item.text ++ quote :: after) := goes_char slash newline some
      rw [if_neg other] at inside
      exact inside
    | escape c =>
      exact goes_escape (one c List.mem_cons_self)
        (stops_items (fun item member => lexed item (List.mem_cons_of_mem _ member)) visible.1) some

theorem goes_literal {items : List Item} {after : List Char} (quotes : quote = '"' ∨ quote = '\'') (lexed : ∀ item ∈ items, item.Lexed quote)
    (one : ∀ c, .escape c ∈ items → c ≠ '\n') (more : after ≠ []) :
    Goes s params none (literalText quote items ++ after) (escaped params (literalText quote items)) none after := by
  have sign : escaped params [quote] = [quote] := by
    apply escaped_other (Or.inr _)
    rcases quotes with rfl | rfl <;> decide
  have first : Goes s params none (quote :: (items.flatMap Item.text ++ quote :: after)) (escaped params [quote]) (some quote)
      (items.flatMap Item.text ++ quote :: after) := by
    rw [sign]
    apply Goes.once _ (Nat.le_refl _)
    intro errors
    have word : ¬letter quote = true := by
      rcases quotes with rfl | rfl <;> decide
    unfold Mac.turn
    simp only [if_neg word, if_pos quotes]
    rw [getc_some (by simp)]
    rfl
  have whole := first.trans (goes_items quotes lexed one more)
  rw [← escaped_append] at whole
  simpa only [literalText, List.cons_append, List.nil_append, List.append_assoc] using whole

end Strings

section Whole

variable {s : Name} {params : List Name}

theorem symbol_letter {c : Char} (symbol : symbolChar c = false) : letter c = false := by
  simp only [symbolChar, isalnum, Bool.or_eq_false_iff] at symbol
  simp [letter, symbol.1.1.1, symbol.1.2]

theorem isdigit_bounds {c : Char} : isdigit c = true ↔ 48 ≤ c.toNat ∧ c.toNat ≤ 57 := by
  simp [isdigit, between]

theorem char_apart {c : Char} {after : List Char} (lexed : Part.Lexed after (.char c)) :
    letter c = false ∧ c ≠ '"' ∧ c ≠ '\'' ∧ c ≠ '/' ∧ c ≠ '\\' ∧ c ≠ '\n' ∧ c ≠ '#' := by
  have apart {d : Char} (refused : ¬(isdigit d ∨ beyond d ∨ d = '.' ∨ d = '+' ∨ d = '-')) : c ≠ d := by
    rintro rfl
    exact refused lexed
  refine ⟨?_, apart (by decide), apart (by decide), apart (by decide), apart (by decide), apart (by decide), apart (by decide)⟩
  have underscore : c ≠ '_' := apart (by decide)
  have alpha : isalpha c = false := by
    rcases lexed with digit | far | rfl | rfl | rfl
    · have := isdigit_bounds.mp digit
      simp [isalpha, between]
      omega
    · have : 128 ≤ c.toNat := of_decide_eq_true far
      simp [isalpha, between]
      omega
    all_goals decide
  simp [letter, alpha, underscore]

theorem goes_part {c : Char} {after : List Char} (lexed : Part.Lexed after (.char c)) (more : after ≠ []) :
    Goes s params none (c :: after) [c] none after := by
  obtain ⟨word, string, character, comment, slash, newline, sharp⟩ := char_apart lexed
  have inside : Goes s params none (c :: after) (escaped params [c]) none after := goes_other word string character comment slash newline more
  rwa [escaped_other (Or.inr sharp)] at inside

/-- A name or a number without a name of a parameter inside. -/
theorem goes_parts {parts : List Part} {after : List Char} (lexed : PartsLexed parts after)
    (apart : ∀ w, .run w ∈ parts → w ∉ params ∧ w.length < NSYMB) (more : after ≠ []) : Goes s params none (partsText parts ++ after) (partsText parts) none after := by
  induction parts with
  | nil => exact .stay none after
  | cons p parts ih =>
    obtain ⟨first, rest⟩ := lexed
    have some : partsText parts ++ after ≠ [] := by simp [more]
    have whole : partsText (p :: parts) ++ after = p.text ++ (partsText parts ++ after) := by simp [partsText]
    rw [whole]
    show Goes s params none _ (p.text ++ partsText parts) none after
    apply Goes.trans _ (ih rest fun w member => apart w (List.mem_cons_of_mem p member))
    cases p with
    | char c => exact goes_part first some
    | run w =>
      obtain ⟨other, short⟩ := apart w List.mem_cons_self
      have run : Goes s params none (w ++ (partsText parts ++ after)) _ none _ := goes_run first short some
      rw [List.idxOf?_eq_none_iff.mpr other] at run
      exact run

theorem goes_piece {p : Piece} {after : List Char} (lexed : p.Lexed after) (kept : p.Kept params) (more : after ≠ []) :
    Goes s params none (p.text ++ after) (p.stored params) none after := by
  cases p with
  | name parts =>
    obtain ⟨⟨w, rfl⟩ | ⟨other, apart⟩, short⟩ := kept
    · have run : Goes s params none (w ++ after) _ none after := goes_run lexed.1.1 (short w List.mem_cons_self) more
      simpa [Piece.text, Piece.stored, partsText, Part.text] using run
    · have copied : Goes s params none (partsText parts ++ after) _ none after :=
        goes_parts lexed.1 (fun w member => ⟨apart w member, short w member⟩) more
      simpa [Piece.text, Piece.stored, List.idxOf?_eq_none_iff.mpr other] using copied
  | number parts => exact goes_parts lexed.1 kept more
  | literal quote items => exact goes_literal lexed.1 lexed.2 kept.1 more
  | comment inside =>
    have passed : Goes s params none ('/' :: '*' :: (inside ++ '*' :: '/' :: after)) [] none after := goes_comment lexed kept more
    simpa [Piece.text, Piece.stored] using passed
  | line inside =>
    obtain ⟨one, rest, rfl⟩ := lexed
    exact goes_line one
  | splice => exact goes_splice more
  | sign c =>
    obtain ⟨symbol, string, character, newline, slash, backslash⟩ := lexed
    have word := symbol_letter symbol
    by_cases comment : c = '/'
    · subst comment
      have copied : Goes s params none ('/' :: after) _ none after := goes_slash (slash rfl) more
      rwa [← escaped_other (Or.inr (show '/' ≠ '#' by decide))] at copied
    by_cases splice : c = '\\'
    · subst splice
      have copied : Goes s params none ('\\' :: after) _ none after := goes_backslash (backslash rfl) more
      rwa [← escaped_other (Or.inr (show '\\' ≠ '#' by decide))] at copied
    exact goes_other word string character comment splice newline more

/-- What `macdef` stores for a body. -/
theorem body_stores {pieces : List Piece} {rest : List Char} (lexed : Lexed pieces ('\n' :: rest)) (kept : ∀ p ∈ pieces, p.Kept params)
    {fuel : Nat} (enough : (bodyText pieces ++ '\n' :: rest).length < fuel) (errors : List Error) :
    body s params fuel none (bodyText pieces ++ '\n' :: rest) errors = .ok (stored params pieces, rest, errors) := by
  have goes : Goes s params none (bodyText pieces ++ '\n' :: rest) (stored params pieces) none ('\n' :: rest) := by
    clear enough
    induction pieces with
    | nil => exact .stay none _
    | cons p pieces ih =>
      have whole : bodyText (p :: pieces) ++ '\n' :: rest = p.text ++ (bodyText pieces ++ '\n' :: rest) := by simp [bodyText]
      rw [whole]
      exact (goes_piece lexed.1 (kept p List.mem_cons_self) (by simp)).trans
        (ih lexed.2 fun q member => kept q (List.mem_cons_of_mem p member))
  obtain ⟨fuel', enough', runs⟩ := body_goes goes enough errors
  rw [runs]
  cases fuel' with
  | zero => exact absurd enough' (Nat.not_lt_zero _)
  | succ fuel' =>
    have done : body s params (fuel' + 1) none ('\n' :: rest) errors = .ok ([], rest, errors) := rfl
    rw [done]
    show Except.ok (stored params pieces ++ [], rest, errors) = _
    rw [List.append_nil]

end Whole

end Goken.Proofs.MacBody
