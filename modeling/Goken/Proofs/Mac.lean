import Goken.Proofs.MacArgs

/-! Macros as textual substitution: what `macexpand` makes of what `macdef` stores. -/

namespace Goken.Proofs.Mac
open Goken.Mac Goken.Lex Lib.Lists MacBody MacArgs

section Substitution

variable {params : List Name} {arg : List (List Char)}

/-- What stands for a piece in the expansion. -/
def value (params : List Name) (arg : List (List Char)) : Piece → List Char
  | .name parts =>
    match params.idxOf? (partsText parts) with
    | some i => (arg[i]?).getD []
    | none => partsText parts
  | .comment _ | .line _ | .splice => []
  | p => p.text

/-- The text before what the loop writes for the rest of the body. -/
def before (text : List Char) (rest : List Char × Bool) : List Char × Bool := (text ++ rest.1, rest.2)

theorem substitute_other {c : Char} (sharp : c ≠ '#') (newline : c ≠ '\n') (more : List Char) :
    substitute arg (c :: more) = before [c] (substitute arg more) := by
  rw [substitute.eq_4 _ _ _ (fun same _ => sharp same) fun _ _ same _ => sharp same]
  simp only [if_neg newline, before, List.singleton_append]

theorem substitute_pair (c : Char) (more : List Char) : substitute arg ('#' :: c :: more) =
    if c = '#' then before [c] (substitute arg more)
    else if c.toNat < 'a'.toNat then substitute arg more
    else before ((arg[c.toNat - 'a'.toNat]?).getD []) (substitute arg more) := rfl

theorem substitute_sharp (more : List Char) : substitute arg ('#' :: '#' :: more) = before ['#'] (substitute arg more) :=
  (substitute_pair _ _).trans (if_pos rfl)

theorem substitute_parameter {i : Nat} (small : i < NARG) (more : List Char) :
    substitute arg ('#' :: Char.ofNat ('a'.toNat + i) :: more) = before ((arg[i]?).getD []) (substitute arg more) := by
  have code : ∀ i < NARG, Char.ofNat ('a'.toNat + i) ≠ '#' ∧ (Char.ofNat ('a'.toNat + i)).toNat = 'a'.toNat + i := by decide
  obtain ⟨sharp, number⟩ := code i small
  have least : ¬ 'a'.toNat + i < 'a'.toNat := by omega
  rw [substitute_pair, if_neg sharp, number, if_neg least, Nat.add_sub_cancel_left]

theorem substitute_escaped {text : List Char} (one : '\n' ∉ text) (doubled : params = [] → '#' ∉ text) (more : List Char) :
    substitute arg (escaped params text ++ more) = before text (substitute arg more) := by
  induction text with
  | nil => rfl
  | cons c text ih =>
    have rest := ih (fun member => one (List.mem_cons_of_mem c member)) fun empty member => doubled empty (List.mem_cons_of_mem c member)
    have newline : c ≠ '\n' := fun same => one (same ▸ List.mem_cons_self)
    have whole : escaped params (c :: text) ++ more = escaped params [c] ++ (escaped params text ++ more) := by
      simp [escaped]
    rw [whole]
    by_cases sharp : c = '#'
    · subst sharp
      have some : params ≠ [] := fun empty => doubled empty List.mem_cons_self
      have pair : escaped params ['#'] = ['#', '#'] := by simp [escaped, some]
      rw [pair]
      show substitute arg ('#' :: '#' :: (escaped params text ++ more)) = _
      rw [substitute_sharp, rest]
      rfl
    · rw [escaped_other (Or.inr sharp)]
      show substitute arg (c :: (escaped params text ++ more)) = _
      rw [substitute_other sharp newline, rest]
      rfl

/-- The characters of a text that is stored as it is. -/
def Visible (text : List Char) : Prop := ∀ c ∈ text, c ≠ '#' ∧ c ≠ '\n'

theorem substitute_visible {text : List Char} (visible : Visible text) (more : List Char) :
    substitute arg (text ++ more) = before text (substitute arg more) := by
  have same : escaped [] text = text := by simp [escaped]
  have one : '\n' ∉ text := fun member => (visible _ member).2 rfl
  have none : ([] : List Name) = [] → '#' ∉ text := fun _ member => (visible _ member).1 rfl
  have copied := @substitute_escaped [] arg text one none more
  rwa [same] at copied

theorem visible_of {test : Char → Bool} (sharp : test '#' = false) (newline : test '\n' = false) {c : Char} (passes : test c = true) :
    c ≠ '#' ∧ c ≠ '\n' := by
  constructor
  · rintro rfl
    rw [sharp] at passes
    cases passes
  · rintro rfl
    rw [newline] at passes
    cases passes

theorem parts_visible {parts : List Part} {after : List Char} (lexed : PartsLexed parts after) : Visible (partsText parts) := by
  induction parts with
  | nil => exact nofun
  | cons p parts ih =>
    obtain ⟨first, rest⟩ := lexed
    intro c member
    rcases List.mem_append.mp (show c ∈ p.text ++ partsText parts from member) with here | later
    · cases p with
      | char d =>
        obtain rfl : c = d := List.mem_singleton.mp here
        obtain ⟨_, _, _, _, _, newline, sharp⟩ := char_apart first
        exact ⟨sharp, newline⟩
      | run w =>
        obtain ⟨⟨d, w, rfl, start, inside⟩, _⟩ := first
        rcases List.mem_cons.mp here with rfl | within
        · exact visible_of (by decide) (by decide) start
        · exact visible_of (by decide) (by decide) (inside c within)
    · exact ih rest c later

theorem literal_one {quote : Char} {items : List Item} (quotes : quote = '"' ∨ quote = '\'') (lexed : ∀ item ∈ items, item.Lexed quote)
    (one : ∀ c, .escape c ∈ items → c ≠ '\n') : '\n' ∉ literalText quote items := by
  have visible : '\n' ≠ quote := by
    rcases quotes with rfl | rfl <;> decide
  intro member
  simp only [literalText, List.mem_cons, List.mem_append, List.mem_flatMap, visible, List.not_mem_nil, or_false, false_or] at member
  obtain ⟨item, inside, here⟩ := member
  cases item with
  | char c => exact (lexed _ inside).2.2 (List.mem_singleton.mp here).symm
  | escape c =>
    rcases List.mem_cons.mp here with impossible | here
    · cases impossible
    · exact one c inside (List.mem_singleton.mp here).symm

/-- The loop over the body of a macro, at one piece. -/
theorem substitute_piece {p : Piece} {after more : List Char} (lexed : p.Lexed after) (kept : p.Kept params) (few : params.length ≤ NARG) :
    substitute arg (p.stored params ++ more) = before (value params arg p) (substitute arg more) := by
  cases p with
  | name parts =>
    simp only [Piece.stored, value]
    cases place : params.idxOf? (partsText parts) with
    | none => exact substitute_visible (parts_visible lexed.1) more
    | some i =>
      have inside : i < params.length := by
        obtain ⟨inside, _⟩ := List.idxOf?_eq_some_iff.mp place
        exact inside
      exact substitute_parameter (Nat.lt_of_lt_of_le inside few) more
  | number parts => exact substitute_visible (parts_visible lexed.1) more
  | literal quote items => exact substitute_escaped (literal_one lexed.1 lexed.2 kept.1) kept.2 more
  | comment inside => rfl
  | line inside => rfl
  | splice => rfl
  | sign c =>
    obtain ⟨_, _, _, newline, _⟩ := lexed
    exact substitute_escaped (by simpa using newline.symm) (fun empty => by simpa using (kept empty).symm) more

theorem substitute_pieces {pieces : List Piece} {after : List Char} (lexed : Lexed pieces after) (kept : ∀ p ∈ pieces, p.Kept params)
    (few : params.length ≤ NARG) : substitute arg (stored params pieces) = (pieces.flatMap (value params arg), true) := by
  induction pieces with
  | nil => rfl
  | cons p pieces ih =>
    show substitute arg (p.stored params ++ stored params pieces) = _
    rw [substitute_piece lexed.1 (kept p List.mem_cons_self) few, ih lexed.2 fun q member => kept q (List.mem_cons_of_mem p member)]
    rfl

end Substitution

section Headings

/-- A name as `getsym` reads it. -/
structure Symbol (w : Name) : Prop where
  starts : ∃ c rest, w = c :: rest ∧ (letter c || beyond c) = true ∧ ∀ d ∈ rest, symbolChar d = true
  short : w.length < NSYMB - 3

theorem blank_of {test : Char → Bool} (space : ∀ c, blank c = true → test c = false) {c : Char} (passes : test c = true) : blank c = false := by
  cases white : blank c with
  | false => rfl
  | true =>
    rw [space c white] at passes
    cases passes

theorem blank_code {c : Char} (white : blank c = true) : c.toNat = 32 ∨ (9 ≤ c.toNat ∧ c.toNat ≤ 13) := by
  simp only [blank, isspace, between, Bool.and_eq_true, Bool.or_eq_true, decide_eq_true_eq] at white
  rcases white.1 with rfl | ⟨low, high⟩
  · exact Or.inl rfl
  · exact Or.inr ⟨low, high⟩

theorem blank_symbol (c : Char) (white : blank c = true) : symbolChar c = false := by
  have code := blank_code white
  have underscore : c ≠ '_' := by
    rintro rfl
    revert white
    decide
  simp [symbolChar, isalnum, isalpha, isdigit, beyond, between, underscore]
  omega

theorem blank_letter (c : Char) (white : blank c = true) : (letter c || beyond c) = false := by
  have symbol := blank_symbol c white
  simp only [symbolChar, isalnum, Bool.or_eq_false_iff] at symbol
  simp [letter, symbol.1.1.1, symbol.1.2, symbol.2]

theorem getnsc_blank {before : List Char} {c : Char} {rest : List Char} (white : ∀ d ∈ before, blank d = true) (black : blank c = false) :
    getnsc (before ++ c :: rest) = some (c, rest) := by
  rw [getnsc, dropWhile_stops white (by simpa using black)]

/-- `getsym` at a name between blanks. -/
theorem getsym_name {before w rest : List Char} (white : ∀ d ∈ before, blank d = true) (symbol : Symbol w)
    (stops : Stops symbolChar rest) (more : rest ≠ []) : getsym (before ++ (w ++ rest)) = .ok (some w, rest, []) := by
  obtain ⟨⟨c, tail, rfl, start, inside⟩, short⟩ := symbol
  have first : getnsc (before ++ (c :: tail ++ rest)) = some (c, tail ++ rest) := getnsc_blank white (blank_of blank_letter start)
  have whole : (c :: tail).take (NSYMB - 3) = c :: tail := List.take_of_length_le (Nat.le_of_lt short)
  rw [getsym, first]
  simp only [if_pos start, takeWhile_stops inside stops, dropWhile_stops inside stops, whole, if_pos short, getc_some more]
  rfl

inductive Parameter where
  | name (before w after : List Char)
  | dots (before after : List Char)

def Parameter.text : Parameter → List Char
  | .name before w after => before ++ (w ++ after)
  | .dots before after => before ++ ("...".toList ++ after)

def Parameter.called : Parameter → Name
  | .name _ w _ => w
  | .dots _ _ => "__VA_ARGS__".toList

def Parameter.isDots : Parameter → Bool
  | .name _ _ _ => false
  | .dots _ _ => true

def Parameter.Lexed : Parameter → Prop
  | .name before w after => (∀ c ∈ before, blank c = true) ∧ Symbol w ∧ ∀ c ∈ after, blank c = true
  | .dots before after => (∀ c ∈ before, blank c = true) ∧ ∀ c ∈ after, blank c = true

def paramsText : List Parameter → List Char
  | [] => []
  | [p] => p.text
  | p :: rest => p.text ++ ',' :: paramsText rest

/-- Only the last parameter may be `...`. -/
def ParamsLexed : List Parameter → Prop
  | [] => True
  | [p] => p.Lexed
  | p :: rest => p.Lexed ∧ p.isDots = false ∧ ParamsLexed rest

def variadic : List Parameter → Bool
  | [] => false
  | [p] => p.isDots
  | _ :: rest => variadic rest

variable {s : Name}

theorem stops_blank {after : List Char} {d : Char} (rest : List Char) (white : ∀ c ∈ after, blank c = true) (symbol : symbolChar d = false) :
    Stops symbolChar (after ++ d :: rest) := by
  intro c head
  cases after with
  | nil =>
    obtain rfl : d = c := Option.some.inj head
    exact symbol
  | cons e after =>
    obtain rfl : e = c := Option.some.inj head
    exact blank_symbol e (white e List.mem_cons_self)

/-- One turn of the loop over the parameters, up to the comma or the parenthesis. -/
theorem getsymdots_parameter {p : Parameter} {d : Char} (rest : List Char) (lexed : p.Lexed) (separates : d = ',' ∨ d = ')') :
    ∃ after, (∀ c ∈ after, blank c = true) ∧ getsymdots (p.text ++ d :: rest) = .ok (some p.called, p.isDots, after ++ d :: rest, []) := by
  have symbol : symbolChar d = false := by
    rcases separates with rfl | rfl <;> decide
  cases p with
  | name before w after =>
    obtain ⟨white, name, white'⟩ := lexed
    refine ⟨after, white', ?_⟩
    have read := getsym_name white name (stops_blank rest white' symbol) (by simp)
    have whole : (Parameter.name before w after).text ++ d :: rest = before ++ (w ++ (after ++ d :: rest)) := by simp [Parameter.text]
    rw [whole, getsymdots, read]
    rfl
  | dots before after =>
    obtain ⟨white, white'⟩ := lexed
    refine ⟨after, white', ?_⟩
    have whole : (Parameter.dots before after).text ++ d :: rest = before ++ '.' :: '.' :: '.' :: (after ++ d :: rest) := by
      simp [Parameter.text]
    have first : getnsc (before ++ '.' :: '.' :: '.' :: (after ++ d :: rest)) = some ('.', '.' :: '.' :: (after ++ d :: rest)) :=
      getnsc_blank white (by decide)
    have read : getsym (before ++ '.' :: '.' :: '.' :: (after ++ d :: rest)) = .ok (none, '.' :: '.' :: '.' :: (after ++ d :: rest), []) := by
      rw [getsym, first]
      rfl
    rw [whole, getsymdots, read]
    rfl

/-- The loop over the parameters. -/
theorem parameters_list {ps : List Parameter} {args : List Name} {rest : List Char} {errors : List Error} {fuel : Nat} (some : ps ≠ [])
    (lexed : ParamsLexed ps) (few : args.length + ps.length ≤ NARG) (enough : ps.length ≤ fuel) :
    parameters s fuel args (paramsText ps ++ ')' :: rest) errors =
      .ok (args ++ ps.map Parameter.called, variadic ps, rest, errors) := by
  induction ps generalizing args fuel with
  | nil => exact absurd rfl some
  | cons p ps ih =>
    cases fuel with
    | zero => exact absurd enough (Nat.not_succ_le_zero _)
    | succ fuel =>
      rw [List.length_cons] at few enough
      have space : ¬args.length ≥ NARG := by omega
      cases ps with
      | nil =>
        obtain ⟨after, white, read⟩ := getsymdots_parameter rest lexed (Or.inr rfl)
        have last : getnsc (after ++ ')' :: rest) = Option.some (')', rest) := getnsc_blank white (by decide)
        show parameters s (fuel + 1) args (p.text ++ ')' :: rest) errors = _
        rw [parameters, read]
        simp only [bind, Except.bind, if_neg space, last, if_true, List.append_nil]
        rfl
      | cons q ps =>
        obtain ⟨first, single, others⟩ := lexed
        obtain ⟨after, white, read⟩ := getsymdots_parameter (paramsText (q :: ps) ++ ')' :: rest) first (Or.inl rfl)
        have comma : getnsc (after ++ ',' :: (paramsText (q :: ps) ++ ')' :: rest)) = Option.some (',', paramsText (q :: ps) ++ ')' :: rest) :=
          getnsc_blank white (by decide)
        have close : ',' ≠ ')' := by decide
        have goes : ¬(',' ≠ ',' ∨ p.isDots = true) := by simp [single]
        have whole : paramsText (p :: q :: ps) ++ ')' :: rest = p.text ++ ',' :: (paramsText (q :: ps) ++ ')' :: rest) := by
          simp [paramsText]
        have next := @ih (args ++ [p.called]) fuel (by simp) others
          (by simp only [List.length_append, List.length_cons, List.length_nil] at few ⊢; omega) (by omega)
        rw [whole, parameters, read]
        simp only [bind, Except.bind, if_neg space, comma, if_neg close, if_neg goes, List.append_nil, next]
        simp [variadic]

/-- The parameter without the blanks before it, which `macdef` has read. -/
def Parameter.trim : Parameter → Parameter
  | .name _ w after => .name [] w after
  | .dots _ after => .dots [] after

theorem paramsText_trim {p : Parameter} {ps : List Parameter} (lexed : ParamsLexed (p :: ps)) (rest : List Char) :
    ∃ before c more, (∀ d ∈ before, blank d = true) ∧ blank c = false ∧ c ≠ ')' ∧
      paramsText (p :: ps) ++ rest = before ++ c :: more ∧ paramsText (p.trim :: ps) ++ rest = c :: more := by
  have first : p.Lexed := by
    cases ps with
    | nil => exact lexed
    | cons q ps => exact lexed.1
  obtain ⟨after, one⟩ : ∃ after, ∀ q : Parameter, paramsText (q :: ps) ++ rest = q.text ++ after := by
    cases ps with
    | nil => exact ⟨rest, fun q => rfl⟩
    | cons r ps => exact ⟨',' :: (paramsText (r :: ps) ++ rest), fun q => by simp [paramsText]⟩
  rw [one p, one p.trim]
  cases p with
  | name before w after' =>
    obtain ⟨white, ⟨⟨c, tail, rfl, start, _⟩, _⟩, _⟩ := first
    refine ⟨before, c, tail ++ after' ++ after, white, blank_of blank_letter start, ?_, ?_, ?_⟩
    · rintro rfl
      revert start
      decide
    · simp [Parameter.text]
    · simp [Parameter.text, Parameter.trim]
  | dots before after' =>
    exact ⟨before, '.', '.' :: '.' :: (after' ++ after), first.1, by decide, by decide, by simp [Parameter.text],
      by simp [Parameter.text, Parameter.trim]⟩

theorem trim_lexed {p : Parameter} {ps : List Parameter} (lexed : ParamsLexed (p :: ps)) : ParamsLexed (p.trim :: ps) := by
  have same : p.trim.isDots = p.isDots := by cases p <;> rfl
  have one (first : p.Lexed) : p.trim.Lexed := by
    cases p with
    | name before w after => exact ⟨nofun, first.2⟩
    | dots before after => exact ⟨nofun, first.2⟩
  cases ps with
  | nil => exact one lexed
  | cons q ps => exact ⟨one lexed.1, same.trans lexed.2.1, lexed.2.2⟩

theorem trim_same (p : Parameter) (ps : List Parameter) :
    (p.trim :: ps).map Parameter.called = (p :: ps).map Parameter.called ∧ variadic (p.trim :: ps) = variadic (p :: ps) := by
  cases p <;> cases ps <;> exact ⟨rfl, rfl⟩

theorem param_length {p : Parameter} (lexed : p.Lexed) : 1 ≤ p.text.length := by
  cases p with
  | name before w after =>
    obtain ⟨_, ⟨⟨c, rest, rfl, _⟩, _⟩, _⟩ := lexed
    simp [Parameter.text]
    omega
  | dots before after =>
    simp [Parameter.text]
    omega

theorem paramsText_length {ps : List Parameter} (lexed : ParamsLexed ps) : ps.length ≤ (paramsText ps).length := by
  induction ps with
  | nil => exact Nat.le_refl 0
  | cons p ps ih =>
    cases ps with
    | nil => exact param_length lexed
    | cons q ps =>
      have one := param_length lexed.1
      have rest := ih lexed.2.2
      simp only [paramsText, List.length_append, List.length_cons] at rest ⊢
      omega

end Headings

section Expansion

/-- What follows `#define`; `inside` are the blanks between parentheses without parameters. -/
structure Define where
  before : List Char
  name : Name
  inside : List Char
  params : List Parameter
  blanks : List Char
  body : List Piece

def Define.text (d : Define) : List Char :=
  d.before ++ (d.name ++ '(' :: ((if d.params = [] then d.inside else paramsText d.params) ++ ')' :: (d.blanks ++ bodyText d.body)))

def Define.names (d : Define) : List Name := d.params.map Parameter.called

structure Define.Lexed (d : Define) : Prop where
  before : ∀ c ∈ d.before, blank c = true
  name : Symbol d.name
  inside : ∀ c ∈ d.inside, blank c = true
  params : ParamsLexed d.params
  blanks : ∀ c ∈ d.blanks, blank c = true
  starts : Stops blank (bodyText d.body ++ ['\n'])
  body : MacBody.Lexed d.body ['\n']

/-- What follows the name of a macro in the text. -/
structure Invocation where
  before : List Char
  args : List Argument

def Invocation.text (i : Invocation) : List Char := i.before ++ '(' :: (argsText i.args ++ [')'])

/-- The macro is given as many arguments as it has parameters. -/
structure Invocation.Lexed (d : Define) (i : Invocation) : Prop where
  before : ∀ c ∈ i.before, blank c = true
  count : i.args.length = d.params.length
  args : ArgsLexed i.args
  balanced : ArgsBalanced (variadic d.params) i.args

/-- The text with the arguments for the parameters. -/
def expansion (d : Define) (i : Invocation) : List Char := d.body.flatMap (value d.names (i.args.map argValue))

/-- Defining the macro and expanding it is the substitution, wherever the texts stand. -/
def Substitutes (d : Define) (i : Invocation) : Prop :=
  ∀ again rest after, ∃ m errors, macdef again (d.text ++ '\n' :: rest) = .ok (d.name, m, rest, errors) ∧
    macexpand d.name m (i.text ++ after) = .ok (expansion d i, after)

/-- What `macdef` and `macexpand` read as the lexer does, within their tables and buffers. -/
structure Meets (d : Define) (i : Invocation) : Prop where
  few : d.params.length ≤ NARG
  body : ∀ p ∈ d.body, p.Kept d.names
  args : ∀ a ∈ i.args, ∀ c ∈ a, c.Kept
  one : i.args ≠ [[]]
  fits : argsSize i.args ≤ room
  written : (expansion d i).length < BUFSIZ

theorem stops_head {test : Char → Bool} {before : List Char} {d : Char} (rest : List Char) (stops : Stops test (before ++ [d])) :
    Stops test (before ++ d :: rest) := by
  intro c head
  apply stops c
  cases before <;> exact head

theorem parts_head {parts : List Part} {before : List Char} {d : Char} (rest : List Char) (lexed : PartsLexed parts (before ++ [d])) :
    PartsLexed parts (before ++ d :: rest) := by
  induction parts with
  | nil => trivial
  | cons p parts ih =>
    refine ⟨?_, ih lexed.2⟩
    cases p with
    | char c => exact lexed.1
    | run w =>
      obtain ⟨word, stops⟩ := lexed.1
      rw [← List.append_assoc] at stops ⊢
      exact ⟨word, stops_head rest stops⟩

theorem piece_head {p : Piece} {before : List Char} {d : Char} (rest : List Char) (lexed : p.Lexed (before ++ [d])) :
    p.Lexed (before ++ d :: rest) := by
  cases p with
  | name parts => exact ⟨parts_head rest lexed.1, stops_head rest lexed.2.1, lexed.2.2⟩
  | number parts => exact ⟨parts_head rest lexed.1, stops_head rest lexed.2.1, lexed.2.2⟩
  | literal => exact lexed
  | comment => exact lexed
  | line inside =>
    obtain ⟨one, tail, same⟩ := lexed
    refine ⟨one, ?_⟩
    cases before with
    | nil => exact ⟨rest, by rw [List.nil_append, (List.cons.inj same).1]⟩
    | cons c before => exact ⟨before ++ d :: rest, by rw [List.cons_append, (List.cons.inj same).1]⟩
  | splice => trivial
  | sign c =>
    obtain ⟨symbol, string, character, newline, slash, backslash⟩ := lexed
    exact ⟨symbol, string, character, newline, fun same => stops_head rest (slash same), fun same => stops_head rest (backslash same)⟩

theorem body_head {pieces : List Piece} {d : Char} (rest : List Char) (lexed : MacBody.Lexed pieces [d]) :
    MacBody.Lexed pieces (d :: rest) := by
  induction pieces with
  | nil => trivial
  | cons p pieces ih => exact ⟨piece_head rest lexed.1, ih lexed.2⟩

theorem heading_text {s : Name} {d : Define} (lexed : d.Lexed) (few : d.params.length ≤ NARG) {after : List Char} (more : after ≠ [])
    (errors : List Error) :
    heading s ('(' :: ((if d.params = [] then d.inside else paramsText d.params) ++ ')' :: after)) errors =
      .ok (d.names.length + 1, variadic d.params, d.names, after, errors) := by
  obtain ⟨before, name, inside, params, blanks, body⟩ := d
  cases params with
  | nil =>
    have close : getnsc (inside ++ ')' :: after) = some (')', after) := getnsc_blank lexed.inside (by decide)
    simp only [heading, if_true, close, getc_some more]
    rfl
  | cons p ps =>
    obtain ⟨white, c, rest, blanks', black, open', whole, trimmed⟩ := paramsText_trim lexed.params (')' :: after)
    have first : getnsc (white ++ c :: rest) = some (c, rest) := getnsc_blank blanks' black
    have enough : (p.trim :: ps).length ≤ rest.length + 1 := by
      have shorter := paramsText_length (trim_lexed lexed.params)
      have total := congrArg List.length trimmed
      rw [List.length_append, List.length_cons, List.length_cons] at total
      omega
    have read := @parameters_list s (p.trim :: ps) [] after errors (rest.length + 1) (by simp) (trim_lexed lexed.params)
      (by simpa using few) enough
    rw [trimmed, (trim_same p ps).1, (trim_same p ps).2] at read
    have some : ¬p :: ps = [] := List.cons_ne_nil p ps
    simp only [heading, if_neg some, whole, first, if_neg open', read, List.nil_append]
    simp only [bind, Except.bind, getc_some more]
    rfl

/-- What `macdef` makes of a definition. -/
theorem macdef_text {d : Define} (lexed : d.Lexed) (few : d.params.length ≤ NARG) (kept : ∀ p ∈ d.body, p.Kept d.names)
    (again : Name → Bool) (rest : List Char) :
    macdef again (d.text ++ '\n' :: rest) = .ok (d.name, ⟨d.names.length + 1, variadic d.params, stored d.names d.body⟩, rest,
      if again d.name then [.redefined d.name] else []) := by
  have whole : d.text ++ '\n' :: rest = d.before ++ (d.name ++ '(' :: ((if d.params = [] then d.inside else paramsText d.params) ++
      ')' :: (d.blanks ++ (bodyText d.body ++ '\n' :: rest)))) := by simp [Define.text]
  have body : (d.blanks ++ (bodyText d.body ++ '\n' :: rest)).dropWhile blank = bodyText d.body ++ '\n' :: rest :=
    dropWhile_stops lexed.blanks (stops_head rest lexed.starts)
  have reads := fun errors => @body_stores d.name d.names d.body rest (body_head rest lexed.body) kept
    ((bodyText d.body ++ '\n' :: rest).length + 1) (Nat.lt_succ_self _) errors
  have more : d.blanks ++ (bodyText d.body ++ '\n' :: rest) ≠ [] := by simp
  have heads := fun errors => @heading_text d.name d lexed few _ more errors
  rw [whole]
  generalize d.blanks ++ (bodyText d.body ++ '\n' :: rest) = after at body more heads ⊢
  generalize (if d.params = [] then d.inside else paramsText d.params) ++ ')' :: after = params at heads ⊢
  have named : getsym (d.before ++ (d.name ++ '(' :: params)) = .ok (some d.name, '(' :: params, []) :=
    getsym_name lexed.before lexed.name (fun c head => by obtain rfl := Option.some.inj head; decide) (by simp)
  have some : bodyText d.body ++ '\n' :: rest ≠ [] := by simp
  rw [macdef, named]
  simp only [bind, Except.bind, heads, body, getc_some some, reads, List.nil_append]

/-- The arguments are not the end of the invocation. -/
theorem not_close {args : List Argument} {dots : Bool} (some : args ≠ []) (one : args ≠ [[]]) (lexed : ArgsLexed args)
    (balanced : ArgsBalanced dots args) (after rest : List Char) : argsText args ++ ')' :: after ≠ ')' :: rest := by
  obtain ⟨a, others, rfl⟩ := List.exists_cons_of_ne_nil some
  intro same
  cases a with
  | nil =>
    cases others with
    | nil => exact one rfl
    | cons b others =>
      obtain ⟨impossible, _⟩ := List.cons.inj same
      exact absurd impossible (by decide)
  | cons c a =>
    obtain ⟨commas, next, more, first, read, whole⟩ : ∃ commas next more, Balanced commas (c :: a) ∧ c.Lexed next ∧
        argsText ((c :: a) :: others) ++ ')' :: after = c.text ++ more := by
      cases others with
      | nil => exact ⟨dots, _, argText a ++ ')' :: after, balanced, lexed.1, by simp [argsText, argText]⟩
      | cons b others =>
        exact ⟨false, _, argText a ++ ',' :: (argsText (b :: others) ++ ')' :: after), balanced.1, lexed.1.1, by simp [argsText, argText]⟩
    rw [whole] at same
    cases c with
    | sign d =>
      obtain ⟨rfl, _⟩ := List.cons.inj same
      cases first
    | literal quote items =>
      obtain ⟨rfl, _⟩ := List.cons.inj same
      exact absurd read.1 (by decide)
    | comment inside =>
      obtain ⟨impossible, _⟩ := List.cons.inj same
      exact absurd impossible (by decide)
    | line inside =>
      obtain ⟨impossible, _⟩ := List.cons.inj same
      exact absurd impossible (by decide)

/-- What `macexpand` reads of an invocation. -/
theorem macexpand_text {d : Define} {i : Invocation} (lexed : i.Lexed d) (meets : Meets d i) (stores : MacBody.Lexed d.body ['\n'])
    (after : List Char) :
    macexpand d.name ⟨d.names.length + 1, variadic d.params, stored d.names d.body⟩ (i.text ++ after) = .ok (expansion d i, after) := by
  have opens : getnsc (i.text ++ after) = some ('(', argsText i.args ++ ')' :: after) := by
    have whole : i.text ++ after = i.before ++ '(' :: (argsText i.args ++ ')' :: after) := by simp [Invocation.text]
    rw [whole]
    exact getnsc_blank lexed.before (by decide)
  have nargs : d.names.length + 1 - 1 = i.args.length := by rw [lexed.count, Nat.add_sub_cancel, Define.names, List.length_map]
  have some : ¬(d.names.length + 1 = 0 ∧ variadic d.params = false) := fun none => absurd none.1 (Nat.succ_ne_zero _)
  have few : d.names.length ≤ NARG := by
    rw [Define.names, List.length_map]
    exact meets.few
  have replaced : substitute (i.args.map argValue) (stored d.names d.body) = (expansion d i, true) :=
    substitute_pieces stores meets.body few
  have written : ¬BUFSIZ ≤ (expansion d i).length := Nat.not_le.mpr meets.written
  have same : ¬(i.args.map argValue).length ≠ i.args.length := fun differs => differs (List.length_map _)
  rw [macexpand, if_neg some, opens]
  simp only [nargs]
  by_cases empty : i.args = []
  · rw [empty] at replaced ⊢
    rw [List.map_nil] at replaced
    simp only [argsText, List.nil_append, bind, Except.bind, replaced, if_neg written]
    rfl
  · have read := @arguments_list d.name i.args.length (variadic d.params) [] i.args after empty lexed.args meets.args lexed.balanced
      (by simp) (lexed.count ▸ meets.few) (by simpa [used] using meets.fits) ((argsText i.args ++ ')' :: after).length + 1)
      (by
        have short := argsText_length i.args
        rw [List.length_append]
        omega)
    have close := not_close empty meets.one lexed.args lexed.balanced after
    generalize argsText i.args ++ ')' :: after = text at read close ⊢
    rw [List.nil_append] at read
    split
    next => cases read
    next text => exact absurd rfl (close text)
    next =>
      rw [read]
      simp only [bind, Except.bind, if_neg same, replaced, if_neg written, if_true]

/-- Defining and expanding a macro is the substitution of the arguments for the parameters. -/
theorem macros_substitute {d : Define} {i : Invocation} (lexed : d.Lexed) (invoked : i.Lexed d) (meets : Meets d i) : Substitutes d i := by
  intro again rest after
  exact ⟨_, _, macdef_text lexed meets.few meets.body again rest, macexpand_text invoked meets lexed.body after⟩

/-- `#define F(x) x` and more of a body. -/
def sample (body : List Piece) : Define := ⟨[' '], ['F'], [], [.name [] ['x'] []], [' '], .name [.run ['x']] :: body⟩

theorem sample_lexed {body : List Piece} (rest : MacBody.Lexed body ['\n']) (stops : Stops symbolChar (bodyText body ++ ['\n'])) :
    (sample body).Lexed where
  before := List.forall_mem_singleton.mpr rfl
  name := ⟨⟨'F', [], rfl, by decide, nofun⟩, show 1 < NSYMB - 3 by decide⟩
  inside := nofun
  params := ⟨nofun, ⟨⟨'x', [], rfl, by decide, nofun⟩, by decide⟩, nofun⟩
  blanks := List.forall_mem_singleton.mpr rfl
  starts := by
    intro c head
    obtain rfl := Option.some.inj head
    decide
  body := by
    refine ⟨⟨⟨⟨⟨'x', [], rfl, by decide, nofun⟩, fun c head => ?_⟩, trivial⟩, stops, List.all_eq_true.mp (by decide), 'x', [], rfl, by decide⟩, rest⟩
    have other := stops c head
    simp only [symbolChar, Bool.or_eq_false_iff] at other
    simp [wordChar, other.1.1, other.1.2]

theorem macros_substitute_sample : Substitutes (sample [.sign '+', .literal '"' [.char 'x'], .sign '#'])
    ⟨[], [[.sign '1', .comment [' ', '*', '*']]]⟩ := by
  apply macros_substitute
  · apply sample_lexed
    · refine ⟨⟨by decide, by decide, by decide, by decide, nofun, nofun⟩, ⟨Or.inl rfl, ?_⟩,
        ⟨by decide, by decide, by decide, by decide, nofun, nofun⟩, trivial⟩
      rintro item (_ | ⟨_, ⟨⟩⟩)
      exact ⟨by decide, by decide, by decide⟩
    · intro c head
      obtain rfl := Option.some.inj head
      decide
  · exact ⟨nofun, rfl, ⟨⟨by decide, by decide, nofun⟩, by unfold Chunk.Lexed; decide, trivial⟩, rfl⟩
  · refine ⟨by decide, ?_, ?_, by simp, by decide, by decide⟩
    · rintro p (_ | ⟨_, _ | ⟨_, _ | ⟨_, _ | ⟨_, ⟨⟩⟩⟩⟩⟩)
      · refine ⟨Or.inl ⟨['x'], rfl⟩, ?_⟩
        rintro w (_ | ⟨_, ⟨⟩⟩)
        decide
      · exact fun _ => by decide
      · exact ⟨fun c inside => by simp at inside, fun _ => by decide⟩
      · exact nofun
    · rintro a (_ | ⟨_, ⟨⟩⟩) c (_ | ⟨_, _ | ⟨_, ⟨⟩⟩⟩)
      · trivial
      · rfl

/-- The comment of an argument that ends with an even number of stars is read past its end. -/
theorem macexpand_comment : (sample []).Lexed ∧
    Invocation.Lexed (sample []) ⟨[], [[.sign '1', .comment [' ', '*']]]⟩ ∧
    ¬Substitutes (sample []) ⟨[], [[.sign '1', .comment [' ', '*']]]⟩ := by
  refine ⟨sample_lexed trivial ?_, ⟨nofun, rfl, ⟨⟨by decide, by decide, nofun⟩, by unfold Chunk.Lexed; decide, trivial⟩, rfl⟩, ?_⟩
  · intro c head
    obtain rfl := Option.some.inj head
    decide
  · intro substitutes
    obtain ⟨m, errors, defined, expanded⟩ := substitutes (fun _ => false) [] []
    have stores : macdef (fun _ => false) ((sample []).text ++ ['\n']) = .ok (['F'], ⟨2, false, ['#', 'a']⟩, [], []) := by rfl
    rw [stores] at defined
    obtain ⟨rfl, _⟩ := Prod.mk.inj (Prod.mk.inj (Except.ok.inj defined)).2
    have fails : macexpand ['F'] ⟨2, false, ['#', 'a']⟩ (Invocation.text ⟨[], [[.sign '1', .comment [' ', '*']]]⟩ ++ []) =
        .error .endOfFile := rfl
    exact nomatch fails.symm.trans expanded

end Expansion

end Goken.Proofs.Mac
