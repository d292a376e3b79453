import Goken.Proofs.MacBody

/-! Arguments of a macro: how the loop of `macexpand` reads them, and which comments it
reads to their end. -/

namespace Goken.Proofs.MacArgs
open Goken.Mac Lib.Lists MacBody

section Comments

/-- How many stars a text ends with. -/
def stars : List Char → Nat
  | [] => 0
  | c :: rest => if c = '*' ∧ rest.all (· = '*') then rest.length + 1 else stars rest

theorem every_star (text : List Char) : text.all (· = '*') = true ↔ ∀ d ∈ text, d = '*' := by simp

theorem stars_all {text : List Char} (all : ∀ d ∈ text, d = '*') : stars text = text.length := by
  cases text with
  | nil => rfl
  | cons c rest => rw [stars, if_pos ⟨all c List.mem_cons_self, (every_star rest).mpr fun d member => all d (List.mem_cons_of_mem c member)⟩, List.length_cons]

theorem stars_other {c : Char} (other : c ≠ '*') (rest : List Char) : stars (c :: rest) = stars rest := by
  rw [stars, if_neg fun both => other both.1]

/-- The loop takes the stars two by two. -/
theorem stars_pair (d : Char) (rest : List Char) : stars ('*' :: d :: rest) % 2 = stars rest % 2 := by
  by_cases star : d = '*'
  · subst star
    by_cases all : ∀ d ∈ rest, d = '*'
    · have pair : ∀ d ∈ '*' :: '*' :: rest, d = '*' := by
        simpa using all
      rw [stars_all pair, stars_all all, List.length_cons, List.length_cons]
      omega
    · have first : ¬∀ d ∈ '*' :: rest, d = '*' := fun every => all fun d member => every d (List.mem_cons_of_mem _ member)
      rw [stars, if_neg fun both => first ((every_star _).mp both.2), stars, if_neg fun both => all ((every_star _).mp both.2)]
  · have first : ¬∀ e ∈ d :: rest, e = '*' := fun every => star (every d List.mem_cons_self)
    rw [stars, if_neg fun both => first ((every_star _).mp both.2), stars_other star]

theorem argComment_eq {inside : List Char} (first : ¬['*', '/'] <:+: inside) (after : List Char) :
    argComment (inside ++ '*' :: '/' :: after) = if stars inside % 2 = 0 then .ok after else argComment after := by
  induction length : inside.length using Nat.strongRecOn generalizing inside with
  | ind n ih =>
    subst length
    cases inside with
    | nil => rfl
    | cons c inside =>
      have within : ¬['*', '/'] <:+: inside := fun found => first (found.trans (List.suffix_cons c inside).isInfix)
      by_cases star : c = '*'
      · subst star
        cases inside with
        | nil => rfl
        | cons d inside =>
          have slash : d ≠ '/' := by
            rintro rfl
            exact first ⟨[], inside, rfl⟩
          have later : ¬['*', '/'] <:+: inside := fun found => within (found.trans (List.suffix_cons d inside).isInfix)
          have pair : argComment ('*' :: d :: (inside ++ '*' :: '/' :: after)) = argComment (inside ++ '*' :: '/' :: after) :=
            argComment.eq_2 d _ slash
          rw [List.cons_append, List.cons_append, pair, ih inside.length (by simp only [List.length_cons]; omega) later rfl, stars_pair]
      · have single : argComment (c :: (inside ++ '*' :: '/' :: after)) = argComment (inside ++ '*' :: '/' :: after) := by
          apply argComment.eq_3
          · exact fun _ same _ => star same
          · exact fun _ _ same _ => star same
        rw [List.cons_append, single, ih inside.length (by simp) within rfl, stars_other star]

/-- The lexer reads every comment to its first end. -/
theorem lexComment_ends {inside : List Char} (first : ¬['*', '/'] <:+: inside) (after : List Char) :
    lexComment (inside ++ '*' :: '/' :: after) = .ok after := by
  induction inside with
  | nil => rfl
  | cons c inside ih =>
    rw [List.cons_append, lexComment.eq_2 _ _ (not_early first after)]
    exact ih fun found => first (found.trans (List.suffix_cons c inside).isInfix)

end Comments

section Chunks

/-- A piece of an argument. -/
inductive Chunk where
  | literal (quote : Char) (items : List Item)
  | comment (inside : List Char)
  | line (inside : List Char)
  | sign (c : Char)

def Chunk.text : Chunk → List Char
  | .literal quote items => literalText quote items
  | .comment inside => '/' :: '*' :: (inside ++ ['*', '/'])
  | .line inside => '/' :: '/' :: (inside ++ ['\n'])
  | .sign c => [c]

/-- A comment and a newline are white space. -/
def Chunk.value : Chunk → List Char
  | .literal quote items => literalText quote items
  | .comment _ | .line _ => [' ']
  | .sign c => [if c = '\n' then ' ' else c]

def Chunk.Lexed (after : List Char) : Chunk → Prop
  | .literal quote items => (quote = '"' ∨ quote = '\'') ∧ ∀ item ∈ items, item.Lexed quote
  | .comment inside => ¬['*', '/'] <:+: inside
  | .line inside => '\n' ∉ inside
  | .sign c => c ≠ '"' ∧ c ≠ '\'' ∧ (c = '/' → Stops (fun d => d = '/' || d = '*') after)

/-- The stars at the end of a comment, two by two, leave the one before the slash. -/
def Chunk.Kept : Chunk → Prop
  | .comment inside => stars inside % 2 = 0
  | _ => True

abbrev Argument := List Chunk

def argText (a : Argument) : List Char := a.flatMap Chunk.text

def argValue (a : Argument) : List Char := a.flatMap Chunk.value

def ArgLexed : Argument → List Char → Prop
  | [], _ => True
  | c :: a, after => c.Lexed (argText a ++ after) ∧ ArgLexed a after

/-- The depth after a chunk; none at the end of the argument. -/
def Chunk.level (commas : Bool) (l : Nat) : Chunk → Option Nat
  | .sign c =>
    if c = '(' then some (l + 1)
    else if c = ')' then (if l = 0 then none else some (l - 1))
    else if c = ',' then (if l = 0 ∧ commas = false then none else some l)
    else some l
  | _ => some l

def level (commas : Bool) : Nat → Argument → Option Nat
  | l, [] => some l
  | l, c :: a => (c.level commas l).bind fun l => level commas l a

/-- The parentheses are balanced and no comma ends the argument. -/
def Balanced (commas : Bool) (a : Argument) : Prop := level commas 0 a = some 0

end Chunks

section Reading

variable {s : Name} {arg : List (List Char)} {cur : List Char}

theorem used_append (arg : List (List Char)) (cur more : List Char) : used arg (cur ++ more) = used arg cur + more.length := by
  simp [used, Nat.add_assoc]

theorem quoted_items {quote c : Char} {items : List Item} {after : List Char} (quotes : quote = '"' ∨ quote = '\'')
    (lexed : ∀ item ∈ items, item.Lexed quote) (fits : used arg cur + 1 + (items.flatMap Item.text).length < room) :
    quoted s quote arg c cur (items.flatMap Item.text ++ quote :: after) = .ok (cur ++ c :: items.flatMap Item.text, after) := by
  have visible : quote ≠ '\\' ∧ quote ≠ '\n' := by
    rcases quotes with rfl | rfl <;> decide
  induction items generalizing c cur with
  | nil =>
    have space : ¬used arg cur ≥ room := by omega
    rw [List.flatMap_nil, List.nil_append, quoted.eq_def]
    simp only [if_neg space, if_neg visible.1, if_neg visible.2, if_true]
  | cons item items ih =>
    have rest := fun item member => lexed item (List.mem_cons_of_mem _ member)
    rw [List.flatMap_cons, List.length_append] at fits
    have space : ¬used arg cur ≥ room := by omega
    cases item with
    | char d =>
      obtain ⟨other, slash, newline⟩ := lexed _ List.mem_cons_self
      have next := @ih (cur ++ [c]) d rest (by rw [used_append]; simp only [Item.text, List.length_singleton] at fits ⊢; omega)
      rw [List.flatMap_cons, List.append_assoc]
      show quoted s quote arg c cur (d :: (items.flatMap Item.text ++ quote :: after)) = _
      rw [quoted.eq_def]
      simp only [if_neg space, if_neg slash, if_neg newline, if_neg other, next]
      simp [Item.text]
    | escape d =>
      have next := @ih (cur ++ [c, '\\']) d rest
        (by rw [used_append]; simp only [Item.text, List.length_cons, List.length_nil] at fits ⊢; omega)
      rw [List.flatMap_cons, List.append_assoc]
      show quoted s quote arg c cur ('\\' :: d :: (items.flatMap Item.text ++ quote :: after)) = _
      rw [quoted.eq_def]
      simp only [if_neg space, if_true, next]
      simp [Item.text]

variable {nargs : Nat} {dots commas : Bool}

/-- One turn of the loop reads one chunk. -/
theorem arguments_chunk {c : Chunk} {l l' : Nat} {after : List Char} (lexed : c.Lexed after) (kept : c.Kept)
    (depth : c.level commas l = some l') (last : commas = true → arg.length + 1 = nargs ∧ dots = true)
    (fits : used arg (cur ++ c.value) < room) (more : after ≠ []) (fuel : Nat) :
    arguments s nargs dots (fuel + 1) l arg cur (c.text ++ after) = arguments s nargs dots fuel l' arg (cur ++ c.value) after := by
  rw [used_append] at fits
  have space : ¬used arg cur ≥ room := by omega
  cases c with
  | literal quote items =>
    obtain ⟨quotes, inside⟩ := lexed
    obtain rfl : l = l' := Option.some.inj depth
    have read := @quoted_items s arg cur quote quote items after quotes inside
      (by simp only [Chunk.value, literalText, List.length_cons, List.length_append, List.length_nil] at fits; omega)
    have whole : (Chunk.literal quote items).text ++ after = quote :: (items.flatMap Item.text ++ quote :: after) := by
      simp [Chunk.text, literalText]
    rw [whole, arguments.eq_def]
    simp only [if_neg space, if_pos quotes, read]
    show arguments s nargs dots fuel l arg (cur ++ quote :: items.flatMap Item.text ++ [quote]) after = _
    simp [Chunk.value, literalText]
  | comment inside =>
    obtain rfl : l = l' := Option.some.inj depth
    have whole : (Chunk.comment inside).text ++ after = '/' :: '*' :: (inside ++ '*' :: '/' :: after) := by simp [Chunk.text]
    have even : stars inside % 2 = 0 := kept
    have read : argComment (inside ++ '*' :: '/' :: after) = .ok after := by rw [argComment_eq lexed, if_pos even]
    have quotes : ¬('/' = '"' ∨ '/' = '\'') := by decide
    rw [whole, arguments.eq_def]
    simp only [if_neg space, if_neg quotes, if_true, read]
    rfl
  | line inside =>
    obtain rfl : l = l' := Option.some.inj depth
    have passes : ∀ c ∈ inside, decide (c ≠ '\n') = true := fun c member => decide_eq_true fun same => lexed (same ▸ member)
    have text : (inside ++ '\n' :: after).dropWhile (fun c => decide (c ≠ '\n')) = '\n' :: after := dropWhile_stops passes (by simp)
    have whole : (Chunk.line inside).text ++ after = '/' :: '/' :: (inside ++ '\n' :: after) := by simp [Chunk.text]
    have quotes : ¬('/' = '"' ∨ '/' = '\'') := by decide
    rw [whole, arguments.eq_def]
    simp only [if_neg space, if_neg quotes, if_true, text]
    rfl
  | sign c =>
    obtain ⟨string, character, slash⟩ := lexed
    have quotes : ¬(c = '"' ∨ c = '\'') := fun either => either.elim string character
    show arguments s nargs dots (fuel + 1) l arg cur (c :: after) = _
    rw [arguments.eq_def]
    simp only [if_neg space, if_neg quotes]
    by_cases comment : c = '/'
    · subst comment
      obtain rfl : l = l' := Option.some.inj depth
      cases after with
      | nil => exact absurd rfl more
      | cons d rest =>
        have other := slash rfl d rfl
        simp only [Bool.or_eq_false_iff, decide_eq_false_iff_not] at other
        simp only [if_true]
        split
        next impossible => cases impossible
        next inside => exact absurd (List.cons.inj inside).1 other.2
        next inside => exact absurd (List.cons.inj inside).1 other.1
        next => rfl
    · rw [if_neg comment]
      simp only [Chunk.level] at depth
      by_cases comma : l = 0 ∧ c = ','
      · obtain ⟨rfl, rfl⟩ := comma
        have free : commas = true := by
          cases commas with
          | true => rfl
          | false => cases depth
        obtain ⟨place, variadic⟩ := last free
        rw [free] at depth
        obtain rfl : 0 = l' := Option.some.inj depth
        rw [if_pos ⟨rfl, rfl⟩, if_pos ⟨place, variadic⟩]
        rfl
      rw [if_neg comma]
      by_cases close : l = 0 ∧ c = ')'
      · obtain ⟨rfl, rfl⟩ := close
        cases depth
      rw [if_neg close]
      congr 1
      by_cases opens : c = '('
      · rw [if_pos opens] at depth ⊢
        exact Option.some.inj depth
      rw [if_neg opens] at depth ⊢
      by_cases closes : c = ')'
      · have deep : l ≠ 0 := fun zero => close ⟨zero, closes⟩
        rw [if_pos closes, if_neg deep] at depth
        rw [if_pos closes]
        exact Option.some.inj depth
      rw [if_neg closes] at depth ⊢
      by_cases separates : c = ','
      · have deep : ¬(l = 0 ∧ commas = false) := fun both => comma ⟨both.1, separates⟩
        rw [if_pos separates, if_neg deep] at depth
        exact Option.some.inj depth
      rw [if_neg separates] at depth
      exact Option.some.inj depth

theorem value_le {a : Argument} {c : Chunk} : used arg (cur ++ c.value) ≤ used arg (cur ++ argValue (c :: a)) := by
  rw [used_append, used_append]
  simp [argValue]

/-- The loop over the chunks of one argument. -/
theorem arguments_chunks {a : Argument} {l l' : Nat} {after : List Char} (lexed : ArgLexed a after) (kept : ∀ c ∈ a, c.Kept)
    (depth : level commas l a = some l') (last : commas = true → arg.length + 1 = nargs ∧ dots = true)
    (fits : used arg (cur ++ argValue a) < room) (more : after ≠ []) (fuel : Nat) :
    arguments s nargs dots (a.length + fuel) l arg cur (argText a ++ after) = arguments s nargs dots fuel l' arg (cur ++ argValue a) after := by
  induction a generalizing l cur with
  | nil =>
    obtain rfl : l = l' := Option.some.inj depth
    simp [argText, argValue]
  | cons c a ih =>
    obtain ⟨first, rest⟩ := lexed
    obtain ⟨between, one, others⟩ := Option.bind_eq_some_iff.mp depth
    have whole : argText (c :: a) ++ after = c.text ++ (argText a ++ after) := by simp [argText]
    have value : cur ++ argValue (c :: a) = cur ++ c.value ++ argValue a := by simp [argValue]
    have count : (c :: a).length + fuel = a.length + fuel + 1 := by
      rw [List.length_cons]
      omega
    rw [whole, count, arguments_chunk first (kept c List.mem_cons_self) one last (Nat.lt_of_le_of_lt value_le fits) (by simp [more]), value]
    rw [value] at fits
    exact ih rest (fun d member => kept d (List.mem_cons_of_mem c member)) others fits

end Reading

section Lists

/-- The arguments with the commas between them. -/
def argsText : List Argument → List Char
  | [] => []
  | [a] => argText a
  | a :: rest => argText a ++ ',' :: argsText rest

def ArgsLexed : List Argument → Prop
  | [] => True
  | [a] => ArgLexed a [')']
  | a :: rest => ArgLexed a [','] ∧ ArgsLexed rest

/-- The last argument of a macro with `...` may have commas. -/
def ArgsBalanced (dots : Bool) : List Argument → Prop
  | [] => True
  | [a] => Balanced dots a
  | a :: rest => Balanced false a ∧ ArgsBalanced dots rest

/-- What the arguments take of `buf`. -/
def argsSize (args : List Argument) : Nat := (args.map fun a => (argValue a).length + 1).sum

variable {s : Name} {nargs : Nat} {dots : Bool} {arg : List (List Char)}

theorem chunk_lexed_head {c : Chunk} {d : Char} {after after' : List Char} (lexed : c.Lexed (after ++ [d])) :
    c.Lexed (after ++ d :: after') := by
  cases c with
  | sign c =>
    obtain ⟨string, character, slash⟩ := lexed
    refine ⟨string, character, fun same e head => slash same e ?_⟩
    cases after <;> exact head
  | literal => exact lexed
  | comment => exact lexed
  | line => exact lexed

theorem arg_lexed_head {a : Argument} {d : Char} {after' : List Char} (lexed : ArgLexed a [d]) : ArgLexed a (d :: after') := by
  induction a with
  | nil => trivial
  | cons c a ih => exact ⟨chunk_lexed_head lexed.1, ih lexed.2⟩

theorem used_snoc (arg : List (List Char)) (value : List Char) : used (arg ++ [value]) [] = used arg value + 1 := by
  simp [used, Nat.add_assoc]

/-- The loop over all arguments. -/
theorem arguments_list {args : List Argument} {after : List Char} (some : args ≠ []) (lexed : ArgsLexed args)
    (kept : ∀ a ∈ args, ∀ c ∈ a, c.Kept) (balanced : ArgsBalanced dots args) (count : arg.length + args.length = nargs)
    (few : nargs ≤ NARG) (fits : used arg [] + argsSize args ≤ room) {fuel : Nat} (enough : (args.map fun a => a.length + 1).sum ≤ fuel) :
    arguments s nargs dots fuel 0 arg [] (argsText args ++ ')' :: after) = .ok (arg ++ args.map argValue, after) := by
  induction args generalizing arg fuel with
  | nil => exact absurd rfl some
  | cons a rest ih =>
    have first := kept a List.mem_cons_self
    have size : argsSize (a :: rest) = (argValue a).length + 1 + argsSize rest := by simp [argsSize]
    have fits' : used arg ([] ++ argValue a) < room := by
      rw [used_append]
      omega
    have space : ¬used arg (argValue a) ≥ room := Nat.not_le_of_lt fits'
    have bigger : a.length + 1 ≤ fuel := by
      simp only [List.map_cons, List.sum_cons] at enough
      omega
    obtain ⟨k, rfl⟩ : ∃ k, fuel = a.length + (k + 1) := ⟨fuel - (a.length + 1), by omega⟩
    cases rest with
    | nil =>
      have last : dots = true → arg.length + 1 = nargs ∧ dots = true := fun variadic => ⟨count, variadic⟩
      show arguments s nargs dots _ 0 arg [] (argText a ++ ')' :: after) = _
      rw [arguments_chunks (arg_lexed_head lexed) first balanced last fits' (by simp) (k + 1), List.nil_append, arguments.eq_def]
      have quotes : ¬(')' = '"' ∨ ')' = '\'') := by decide
      have comment : ')' ≠ '/' := by decide
      simp only [if_neg space, if_neg quotes, if_neg comment, and_self, if_true]
      rfl
    | cons b rest =>
      obtain ⟨early, later⟩ := balanced
      have whole : argsText (a :: b :: rest) ++ ')' :: after = argText a ++ ',' :: (argsText (b :: rest) ++ ')' :: after) := by
        simp [argsText]
      have length : arg.length + (rest.length + 2) = nargs := count
      rw [whole, arguments_chunks (arg_lexed_head lexed.1) first early nofun fits' (by simp) (k + 1), List.nil_append, arguments.eq_def]
      have quotes : ¬(',' = '"' ∨ ',' = '\'') := by decide
      have comment : ',' ≠ '/' := by decide
      have notLast : ¬(arg.length + 1 = nargs ∧ dots = true) := by omega
      have place : ¬arg.length + 1 ≥ NARG := by omega
      have notMore : ¬arg.length + 2 > nargs := by omega
      simp only [if_neg space, if_neg quotes, if_neg comment, and_self, if_true, if_neg notLast, if_neg place, if_neg notMore]
      have next := @ih (arg ++ [argValue a]) (by simp) lexed.2 (fun b member => kept b (List.mem_cons_of_mem a member)) later
        (by simp only [List.length_append, List.length_cons, List.length_nil]; omega)
        (by
          have used : Mac.used arg (argValue a) = Mac.used arg [] + (argValue a).length := used_append arg [] (argValue a)
          rw [used_snoc]
          omega) k
        (by
          rw [List.map_cons, List.sum_cons] at enough
          omega)
      rw [next]
      simp

theorem chunk_positive (c : Chunk) : 1 ≤ c.text.length := by
  cases c <;> simp [Chunk.text, literalText]

theorem argText_length (a : Argument) : a.length ≤ (argText a).length := by
  induction a with
  | nil => exact Nat.le_refl 0
  | cons c a ih =>
    have one := chunk_positive c
    simp only [argText, List.flatMap_cons, List.length_append, List.length_cons] at ih ⊢
    omega

theorem argsText_length (args : List Argument) : (args.map fun a => a.length + 1).sum ≤ (argsText args).length + 1 := by
  induction args with
  | nil => exact Nat.zero_le 1
  | cons a rest ih =>
    have one := argText_length a
    rw [List.map_cons, List.sum_cons]
    cases rest with
    | nil =>
      show a.length + 1 + 0 ≤ (argText a).length + 1
      omega
    | cons b rest =>
      have whole : (argsText (a :: b :: rest)).length = (argText a).length + ((argsText (b :: rest)).length + 1) := by
        simp [argsText]
      omega

end Lists

end Goken.Proofs.MacArgs
