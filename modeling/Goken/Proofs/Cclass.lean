import Goken.Regcomp
import Goken.Lib.Spans
import Goken.Proofs.Rune

/-! Character classes. The text of a class is a list of runes and ranges; the
compiler reads its characters into spans, sorts these and joins what touches. -/

namespace Goken.Proofs.Cclass
open Goken.Regexec Goken.Regcomp Lib.Spans

/-! Sorting by exchange. -/

/-- One step of the inner loop: the least span so far, and the ones passed. -/
def exchange (x : (Nat × Nat) × List (Nat × Nat)) (np : Nat × Nat) : (Nat × Nat) × List (Nat × Nat) :=
  if np.1 < x.1.1 then (np, x.2 ++ [x.1]) else (x.1, x.2 ++ [np])

theorem sort_cons (fuel : Nat) (p : Nat × Nat) (rest : List (Nat × Nat)) :
    sort (fuel + 1) (p :: rest) = (rest.foldl exchange (p, [])).1 :: sort fuel (rest.foldl exchange (p, [])).2 := rfl

theorem exchange_least {x : (Nat × Nat) × List (Nat × Nat)} (rest : List (Nat × Nat)) (least : ∀ q ∈ x.2, x.1.1 ≤ q.1) :
    ((rest.foldl exchange x).1 :: (rest.foldl exchange x).2).Perm (x.1 :: (x.2 ++ rest)) ∧
      ∀ q ∈ (rest.foldl exchange x).2, (rest.foldl exchange x).1.1 ≤ q.1 := by
  induction rest generalizing x with
  | nil =>
      rw [List.append_nil]
      exact ⟨List.Perm.refl _, least⟩
  | cons np rest ih =>
      obtain ⟨p, done⟩ := x
      rw [List.foldl_cons, exchange]
      split
      · rename_i less
        obtain ⟨same, least'⟩ := @ih (np, done ++ [p]) (by
          intro q member
          rcases List.mem_append.mp member with before | here
          · exact Nat.le_of_lt (Nat.lt_of_lt_of_le less (least q before))
          · rw [List.mem_singleton.mp here]
            exact Nat.le_of_lt less)
        refine ⟨same.trans ?_, least'⟩
        have moved : (np :: (done ++ [p] ++ rest)).Perm (np :: p :: (done ++ rest)) := by
          rw [List.append_assoc]
          exact List.Perm.cons np List.perm_middle
        exact moved.trans ((List.Perm.swap p np _).trans (List.Perm.cons p List.perm_middle.symm))
      · rename_i more
        obtain ⟨same, least'⟩ := @ih (p, done ++ [np]) (by
          intro q member
          rcases List.mem_append.mp member with before | here
          · exact least q before
          · rw [List.mem_singleton.mp here]
            exact Nat.le_of_not_lt more)
        refine ⟨same.trans ?_, least'⟩
        rw [List.append_assoc]
        exact List.Perm.refl _

theorem sort_perm (fuel : Nat) (l : List (Nat × Nat)) : (sort fuel l).Perm l := by
  induction fuel generalizing l with
  | zero => exact List.Perm.refl l
  | succ fuel ih =>
      cases l with
      | nil => exact List.Perm.refl []
      | cons p rest =>
          rw [sort_cons]
          exact (List.Perm.cons _ (ih _)).trans (exchange_least rest (x := (p, [])) nofun).1

theorem sort_sorted {fuel : Nat} {l : List (Nat × Nat)} (enough : l.length ≤ fuel) : Sorted (sort fuel l) := by
  induction fuel generalizing l with
  | zero =>
      rw [List.eq_nil_of_length_eq_zero (Nat.le_zero.mp enough)]
      exact List.Pairwise.nil
  | succ fuel ih =>
      cases l with
      | nil => exact List.Pairwise.nil
      | cons p rest =>
          obtain ⟨same, least⟩ := exchange_least rest (x := (p, [])) nofun
          have size := same.length_eq
          rw [sort_cons]
          refine List.pairwise_cons.mpr ⟨fun q member => least q ((sort_perm fuel _).mem_iff.mp member), ih ?_⟩
          simp only [List.length_cons, List.nil_append] at size enough
          omega

/-- When no range is reversed the order of the spans makes no difference. -/
theorem sort_separate_iff {l : List (Nat × Nat)} (proper : ∀ p ∈ l, p.1 ≤ p.2) : Separate (sort l.length l) ↔ l.Pairwise Apart := by
  have same := sort_perm l.length l
  rw [separate_iff (sort_sorted (Nat.le_refl _)) fun p member => proper p (same.mem_iff.mp member)]
  exact same.pairwise_iff fun apart => ⟨apart.2, apart.1⟩

/-! Merging. -/

/-- One step of the loop; the span that grows is the first one. -/
def absorb (np : List (Nat × Nat)) (q : Nat × Nat) : List (Nat × Nat) :=
  match np with
  | [] => [q]
  | last :: np => if q.1 ≤ last.2 then (last.1, max last.2 q.2) :: np else q :: last :: np

theorem foldl_absorb (rest : List (Nat × Nat)) (last : Nat × Nat) (np : List (Nat × Nat)) :
    (rest.foldl absorb (last :: np)).reverse = np.reverse ++ join last rest := by
  induction rest generalizing last np with
  | nil => exact List.reverse_cons
  | cons q rest ih =>
      rw [List.foldl_cons, absorb, join]
      split
      · exact ih _ np
      · rw [ih, List.reverse_cons, List.append_assoc, List.singleton_append]

theorem merge_cons (p : Nat × Nat) (rest : List (Nat × Nat)) : merge (p :: rest) = join p rest := foldl_absorb rest p []

/-- The spans of some pairs. -/
def compile (pairs : List (Nat × Nat)) : List (Nat × Nat) := merge (sort pairs.length pairs)

structure Compiled (pairs spans : List (Nat × Nat)) : Prop where
  sorted : Sorted spans
  separate : Separate spans
  inside : ∀ r, Inside spans r ↔ Inside pairs r
  length : spans.length ≤ pairs.length
  full : spans.length = pairs.length ↔ Separate (sort pairs.length pairs)

theorem compiled (pairs : List (Nat × Nat)) : Compiled pairs (compile pairs) := by
  have same := sort_perm pairs.length pairs
  have ordered := sort_sorted (Nat.le_refl pairs.length)
  obtain ⟨l, named⟩ : ∃ l, sort pairs.length pairs = l := ⟨_, rfl⟩
  rw [named] at same ordered
  rw [compile, named]
  cases l with
  | nil =>
      rw [List.nil_perm.mp same]
      exact ⟨List.Pairwise.nil, List.Pairwise.nil, fun _ => Iff.rfl, Nat.le_refl 0, iff_of_true rfl List.Pairwise.nil⟩
  | cons p rest =>
      have size := same.length_eq
      obtain ⟨sorted, separate⟩ := join_sorted p ordered
      rw [merge_cons]
      rw [List.length_cons] at size
      have full := join_length_iff p ordered
      rw [← named, size] at full
      exact ⟨sorted, separate, fun r => (join_inside p ordered r).trans (Inside.perm same), size ▸ join_length p rest, full⟩

/-! The text of a class. -/

/-- A character of the expression, and whether it is quoted. -/
abbrev Letter := Bool × Nat

def dash : Letter := (false, 45)
def bracket : Letter := (false, 93)
def caret : Letter := (false, 94)

/-- The characters read between two states. -/
def Reads (s : State) : List Letter → State → Prop
  | [], s' => s' = s
  | c :: text, s' => ∃ s1, nextc s = (c.1, c.2, s1) ∧ Reads s1 text s'

/-- What stands between the brackets. -/
structure ClassText (s : State) (text : List Letter) (s' : State) : Prop where
  reads : Reads s (text ++ [bracket]) s'
  plain : ∀ c ∈ text, c.2 ≠ 0 ∧ c ≠ bracket

inductive Item where
  | rune (r : Nat)
  | range (low high : Nat)
  deriving DecidableEq

def Item.span : Item → Nat × Nat
  | .rune r => (r, r)
  | .range low high => (low, high)

/-- The runes and ranges of a text. -/
inductive Items : List Letter → List Item → Prop where
  | nil : Items [] []
  | rune {c : Letter} {text : List Letter} {items : List Item} (plain : c ≠ dash) (rest : Items text items) :
      Items (c :: text) (.rune c.2 :: items)
  | range {c d : Letter} {text : List Letter} {items : List Item} (plain : c ≠ dash) (rest : Items text items) :
      Items (c :: dash :: d :: text) (.range c.2 d.2 :: items)

def negated (text : List Letter) : Bool := text.head? = some caret

def body (text : List Letter) : List Letter := if negated text then text.tail else text

/-- The pair for a newline. -/
def start (text : List Letter) : List (Nat × Nat) := if negated text then [(newline, newline)] else []

/-- Whether an instruction takes a rune. -/
def accepts (kind : Kind) (spans : List (Nat × Nat)) (r : Nat) : Bool := if kind = .NCCLASS then !within spans r else within spans r

/-- An error, or the text is read to its end and the spans are right. -/
def Exact (text : List Letter) (s' : State) : Comp (Kind × State) → Prop
  | .error _ => True
  | .ok (kind, st) =>
      st.exprp = s'.exprp ∧ st.lexdone = s'.lexdone ∧ 2 * st.yyclassp.length ≤ 64 ∧ Sorted st.yyclassp ∧ Separate st.yyclassp ∧
        ∃ items, Items (body text) items ∧ ∀ r, accepts kind st.yyclassp r = true ↔
          if negated text then ¬ Inside (items.map Item.span) r ∧ r ≠ newline else Inside (items.map Item.span) r

/-! Reading. -/

theorem chartorune_positive {s : List UInt8} (readable : Rune.Readable s) {r : Goken.Rune.Rune} {n : Nat}
    (read : Goken.Rune.chartorune s = some (r, n)) : 0 < n := by
  rcases Rune.chartorune_cases readable with bad | ⟨v, rest, small, bytes⟩
  · obtain ⟨-, rfl⟩ := Prod.mk.inj (Option.some.inj (read.symm.trans bad))
    exact Nat.one_pos
  · rw [bytes, Rune.chartorune_utf8 small] at read
    obtain ⟨-, rfl⟩ := Prod.mk.inj (Option.some.inj read)
    rw [Rune.utf8_length]
    split_ifs <;> decide

theorem take_less {exprp : List UInt8} (nonzero : (Regcomp.take exprp).1 ≠ 0) : (Regcomp.take exprp).2.length < exprp.length := by
  cases exprp with
  | nil => exact absurd (by decide) nonzero
  | cons b exprp =>
      rw [Regcomp.take]
      split
      · rename_i r n read
        have positive := chartorune_positive (.inl (List.mem_append_right _ List.mem_cons_self)) read
        rw [List.length_drop, List.length_cons]
        omega
      · exact Nat.zero_lt_succ _

theorem nextc_less {s s1 : State} {c : Letter} (nonzero : c.2 ≠ 0) (read : nextc s = (c.1, c.2, s1)) : s1.exprp.length < s.exprp.length := by
  unfold nextc at read
  split at read
  · exact absurd (congrArg (·.2.1) read).symm nonzero
  dsimp only at read
  split at read
  · rename_i escaped
    obtain ⟨-, value, rfl⟩ := Prod.mk.inj read |>.imp_right Prod.mk.inj
    rw [← value] at nonzero
    exact Nat.lt_trans (take_less nonzero) (take_less (by rw [escaped]; decide))
  · obtain ⟨-, value, rfl⟩ := Prod.mk.inj read |>.imp_right Prod.mk.inj
    rw [← value] at nonzero
    exact take_less nonzero

theorem nextc_nclass (s : State) (n : Nat) :
    nextc { s with nclass := n } = ((nextc s).1, (nextc s).2.1, { (nextc s).2.2 with nclass := n }) := by
  unfold nextc
  dsimp only
  split
  · rfl
  · split <;> rfl

theorem Reads.nclass {s s' : State} {text : List Letter} (reads : Reads s text s') (n : Nat) :
    Reads { s with nclass := n } text { s' with nclass := n } := by
  induction text generalizing s with
  | nil =>
      rw [show s' = s from reads]
      rfl
  | cons c text ih =>
      obtain ⟨s1, read, rest⟩ := reads
      exact ⟨{ s1 with nclass := n }, by rw [nextc_nclass, read], ih rest⟩

theorem Reads.length {s s' : State} {text : List Letter} (nonzero : ∀ c ∈ text, c.2 ≠ 0) (reads : Reads s text s') :
    s'.exprp.length + text.length ≤ s.exprp.length := by
  induction text generalizing s with
  | nil =>
      rw [show s' = s from reads]
      exact Nat.le_refl _
  | cons c text ih =>
      obtain ⟨s1, read, rest⟩ := reads
      have first := nextc_less (nonzero c List.mem_cons_self) read
      have later := ih (fun d member => nonzero d (List.mem_cons_of_mem c member)) rest
      rw [List.length_cons]
      omega

/-! The loop. -/

/-- The loop over the characters themselves; what is left is not read. -/
def scan : List (Nat × Nat) → List Letter → Option (List (Nat × Nat) × List Letter)
  | ep, [] => some (ep, [])
  | ep, c :: rest =>
      if NCCRUNE ≤ 2 * ep.length then some (ep, rest)
      else if c = bracket then some (ep, rest)
      else if c = dash then
        match ep, rest with
        | last :: ep, d :: rest => if d = bracket then none else scan ((last.1, d.2) :: ep) rest
        | _, _ => none
      else scan ((c.2, c.2) :: ep) rest

theorem Reads.next {s s' : State} {text : List Letter} (reads : Reads s (text ++ [bracket]) s') :
    ∃ c rest s1, c :: rest = text ++ [bracket] ∧ nextc s = (c.1, c.2, s1) ∧ Reads s1 rest s' := by
  cases text with
  | nil =>
      obtain ⟨s1, read, rest⟩ := reads
      exact ⟨bracket, [], s1, rfl, read, rest⟩
  | cons c text =>
      obtain ⟨s1, read, rest⟩ := reads
      exact ⟨c, text ++ [bracket], s1, rfl, read, rest⟩

/-- The loop of the compiler is the one over characters. -/
theorem spans_scan {fuel : Nat} {ep : List (Nat × Nat)} {c : Letter} {text rest : List Letter} {s s' : State}
    (whole : c :: rest = text ++ [bracket]) (nonzero : ∀ c ∈ text, c.2 ≠ 0) (reads : Reads s rest s') (enough : text.length < fuel) :
    (scan ep (c :: rest) = none ∧ ∃ message, spans fuel ep c.1 c.2 s = .error message) ∨
      ∃ pairs left st, scan ep (c :: rest) = some (pairs, left) ∧ spans fuel ep c.1 c.2 s = .ok (pairs, st) ∧ Reads st left s' := by
  induction fuel generalizing ep c text rest s with
  | zero => omega
  | succ fuel ih =>
      have valued : c.2 ≠ 0 := by
        cases text with
        | nil =>
            rw [(List.cons.inj whole).1]
            decide
        | cons d text =>
            rw [(List.cons.inj whole).1]
            exact nonzero d List.mem_cons_self
      have closes : (¬ c.1 = true ∧ c.2 = 93) ↔ c = bracket := by
        rw [Prod.ext_iff, Bool.not_eq_true]
        rfl
      have ranges : (¬ c.1 = true ∧ c.2 = 45) ↔ c = dash := by
        rw [Prod.ext_iff, Bool.not_eq_true]
        rfl
      unfold spans scan
      rw [if_neg valued, if_congr closes rfl rfl, if_congr ranges rfl rfl]
      by_cases full : NCCRUNE ≤ 2 * ep.length
      · rw [if_pos full, if_pos full]
        exact .inr ⟨ep, rest, s, rfl, rfl, reads⟩
      rw [if_neg full, if_neg full]
      by_cases last : c = bracket
      · rw [if_pos last, if_pos last]
        exact .inr ⟨ep, rest, s, rfl, rfl, reads⟩
      rw [if_neg last, if_neg last]
      obtain ⟨text, rfl⟩ : ∃ text', text = c :: text' := by
        cases text with
        | nil => exact absurd (List.cons.inj whole).1 last
        | cons d text => exact ⟨text, by rw [(List.cons.inj whole).1]⟩
      obtain rfl : rest = text ++ [bracket] := (List.cons.inj whole).2
      have later : ∀ d ∈ text, d.2 ≠ 0 := fun d member => nonzero d (List.mem_cons_of_mem c member)
      have fuel' : text.length < fuel := Nat.lt_of_succ_lt_succ enough
      obtain ⟨d, rest, s1, same, read, reads⟩ := reads.next
      by_cases ranged : c = dash
      · rw [if_pos ranged, if_pos ranged]
        cases ep with
        | nil => exact .inl ⟨rfl, _, rfl⟩
        | cons pair ep =>
            rw [← same, read]
            dsimp only
            by_cases ended : d = bracket
            · rw [if_pos ended, if_pos (.inl (by rw [ended]; decide))]
              exact .inl ⟨rfl, _, rfl⟩
            obtain ⟨text, rfl⟩ : ∃ text', text = d :: text' := by
              cases text with
              | nil => exact absurd (List.cons.inj same).1 ended
              | cons e text => exact ⟨text, by rw [(List.cons.inj same).1]⟩
            obtain rfl : rest = text ++ [bracket] := (List.cons.inj same).2
            obtain ⟨e, rest, s2, same', read', reads⟩ := reads.next
            have open' : ¬ ((¬ d.1 = true ∧ d.2 = 93) ∨ d.2 = 0) := by
              rintro (closed | zero)
              · exact ended (Prod.ext (Bool.not_eq_true _ ▸ closed.1) closed.2)
              · exact later d List.mem_cons_self zero
            rw [if_neg ended, if_neg open', ← same', read']
            exact ih same' (fun x member => later x (List.mem_cons_of_mem d member)) reads (Nat.lt_of_succ_lt fuel')
      · rw [if_neg ranged, if_neg ranged, ← same, read]
        exact ih same later reads fuel'

/-- A dash that follows nothing or is followed by nothing, among the first
characters that fill the buffer. -/
def dangling (n : Nat) : List Letter → Bool
  | [] => false
  | c :: text =>
      if NCCRUNE ≤ 2 * n then false
      else if c = dash then
        match text with
        | [] => true
        | _ :: text => n = 0 || dangling n text
      else dangling (n + 1) text

theorem scan_cons (ep : List (Nat × Nat)) (c : Letter) (rest : List Letter) : scan ep (c :: rest) =
    if NCCRUNE ≤ 2 * ep.length then some (ep, rest)
    else if c = bracket then some (ep, rest)
    else if c = dash then
      match ep, rest with
      | last :: ep, d :: rest => if d = bracket then none else scan ((last.1, d.2) :: ep) rest
      | _, _ => none
    else scan ((c.2, c.2) :: ep) rest := by
  conv_lhs => unfold scan

theorem dangling_cons (n : Nat) (c : Letter) (text : List Letter) : dangling n (c :: text) =
    if NCCRUNE ≤ 2 * n then false
    else if c = dash then
      match text with
      | [] => true
      | _ :: text => n = 0 || dangling n text
    else dangling (n + 1) text := by
  conv_lhs => unfold dangling

theorem scan_bracket (ep : List (Nat × Nat)) : scan ep [bracket] = some (ep, []) := by
  rw [scan_cons, if_pos rfl, ite_self]

/-- What is left is part of what there was. -/
theorem scan_left {ep pairs : List (Nat × Nat)} {text left : List Letter} (scanned : scan ep text = some (pairs, left)) :
    ∀ c ∈ left, c ∈ text := by
  fun_induction scan ep text with
  | case1 ep =>
      obtain ⟨-, rfl⟩ := Prod.mk.inj (Option.some.inj scanned)
      exact fun c member => member
  | case2 ep c rest full =>
      obtain ⟨-, rfl⟩ := Prod.mk.inj (Option.some.inj scanned)
      exact fun d member => List.mem_cons_of_mem c member
  | case3 ep rest free =>
      obtain ⟨-, rfl⟩ := Prod.mk.inj (Option.some.inj scanned)
      exact fun d member => List.mem_cons_of_mem _ member
  | case4 => cases scanned
  | case5 _ _ _ _ _ _ _ ih => exact fun e member => List.mem_cons_of_mem _ (List.mem_cons_of_mem _ (ih scanned e member))
  | case6 => cases scanned
  | case7 ep c rest free notBracket notDash ih => exact fun d member => List.mem_cons_of_mem c (ih scanned d member)

theorem scan_none_iff {n : Nat} {ep : List (Nat × Nat)} {text : List Letter} (size : ep.length = n) (plain : ∀ c ∈ text, c ≠ bracket) :
    scan ep (text ++ [bracket]) = none ↔ dangling n text = true := by
  induction n, text using dangling.induct generalizing ep with
  | case1 n => exact iff_of_false (by rw [List.nil_append, scan_bracket]; nofun) nofun
  | case2 n c text full =>
      rw [List.cons_append, scan_cons, dangling_cons, if_pos full, if_pos (by rw [size]; exact full)]
      simp
  | case3 n free =>
      rw [dangling_cons, if_neg free, if_pos rfl, List.cons_append, scan_cons, size, if_neg free, if_neg (by decide), if_pos rfl]
      cases ep <;> simp
  | case4 n free d text ih =>
      rw [dangling_cons, if_neg free, if_pos rfl, List.cons_append, scan_cons, size, if_neg free, if_neg (by decide), if_pos rfl]
      cases ep with
      | nil => simp [← size]
      | cons pair ep =>
          have later : ∀ c ∈ text, c ≠ bracket := fun c member => plain c (List.mem_cons_of_mem _ (List.mem_cons_of_mem _ member))
          have some : n ≠ 0 := by
            rw [← size]
            exact Nat.succ_ne_zero _
          rw [List.cons_append]
          dsimp only
          rw [if_neg (plain d (List.mem_cons_of_mem _ List.mem_cons_self)), decide_eq_false some, Bool.false_or]
          exact ih size later
  | case5 n c text free notDash ih =>
      rw [dangling_cons, if_neg free, if_neg notDash, List.cons_append, scan_cons, size, if_neg free, if_neg (plain c List.mem_cons_self),
        if_neg notDash]
      exact ih (by rw [List.length_cons, size]) fun d member => plain d (List.mem_cons_of_mem c member)

/-- The items fit, and the buffer is not filled by the first rune of a range. -/
def Fits (n : Nat) (items : List Item) : Prop :=
  n + items.length ≤ 32 ∨ n + items.length = 33 ∧ ∀ low high, items.getLast? ≠ some (.range low high)

theorem Fits.cons {n : Nat} {item : Item} {items : List Item} (room : n + 1 ≤ 32 ∨ items ≠ [] ∨ ∃ r, item = .rune r) :
    Fits (n + 1) items ↔ Fits n (item :: items) := by
  rw [Fits, Fits, List.length_cons, Nat.add_right_comm n 1, ← Nat.add_assoc n]
  cases items with
  | nil =>
      rcases room with few | some | ⟨r, rfl⟩
      · exact iff_of_true (.inl few) (.inl few)
      · exact absurd rfl some
      · simp
  | cons next items => rw [List.getLast?_cons_cons]

theorem Fits.room {n : Nat} {items : List Item} (fits : Fits n items) : n + items.length ≤ 33 := by
  rcases fits with few | ⟨full, -⟩ <;> omega

theorem scan_items {text : List Letter} {items : List Item} (written : Items text items) (plain : ∀ c ∈ text, c ≠ bracket)
    {ep : List (Nat × Nat)} (start : ep.length ≤ 33) : ∃ pairs left, scan ep (text ++ [bracket]) = some (pairs, left) ∧
      (left = [] ↔ Fits ep.length items) ∧ (left = [] → pairs = (items.map Item.span).reverse ++ ep) := by
  induction written generalizing ep with
  | nil =>
      refine ⟨ep, [], scan_bracket ep, iff_of_true rfl ?_, fun _ => rfl⟩
      rcases Nat.lt_or_eq_of_le start with few | full
      · exact .inl (Nat.le_of_lt_succ few)
      · exact .inr ⟨full, nofun⟩
  | @rune c text items notDash rest ih =>
      rw [List.cons_append, scan_cons]
      by_cases full : NCCRUNE ≤ 2 * ep.length
      · have many : 33 ≤ ep.length := by
          rw [NCCRUNE] at full
          omega
        rw [if_pos full]
        refine ⟨ep, text ++ [bracket], rfl, iff_of_false (by simp) fun fits => ?_, fun none => by simp at none⟩
        have := fits.room
        rw [List.length_cons] at this
        omega
      · have few : ep.length ≤ 32 := by
          rw [NCCRUNE] at full
          omega
        rw [if_neg full, if_neg (plain c List.mem_cons_self), if_neg notDash]
        obtain ⟨pairs, left, scanned, all, spans⟩ := @ih (fun d member => plain d (List.mem_cons_of_mem c member)) ((c.2, c.2) :: ep)
          (Nat.succ_le_succ few)
        rw [List.length_cons, Fits.cons (.inr (.inr ⟨c.2, rfl⟩))] at all
        refine ⟨pairs, left, scanned, all, fun none => ?_⟩
        rw [spans none, List.map_cons, List.reverse_cons, List.append_assoc]
        rfl
  | @range c d text items notDash rest ih =>
      rw [List.cons_append, List.cons_append, List.cons_append, scan_cons]
      by_cases full : NCCRUNE ≤ 2 * ep.length
      · have many : 33 ≤ ep.length := by
          rw [NCCRUNE] at full
          omega
        rw [if_pos full]
        refine ⟨ep, _, rfl, iff_of_false (by simp) fun fits => ?_, nofun⟩
        have := fits.room
        rw [List.length_cons] at this
        omega
      rw [if_neg full, if_neg (plain c List.mem_cons_self), if_neg notDash, scan_cons, List.length_cons]
      by_cases first : NCCRUNE ≤ 2 * (ep.length + 1)
      · have many : 32 ≤ ep.length := by
          rw [NCCRUNE] at first
          omega
        rw [if_pos first]
        refine ⟨_, _, rfl, iff_of_false (by simp) fun fits => ?_, nofun⟩
        rcases fits with few | ⟨exact', last⟩
        · rw [List.length_cons] at few
          omega
        · have none : items = [] := List.eq_nil_of_length_eq_zero (by rw [List.length_cons] at exact'; omega)
          rw [none] at last
          exact last c.2 d.2 rfl
      · have few : ep.length + 1 ≤ 32 := by
          rw [NCCRUNE] at first
          omega
        have later : ∀ x ∈ text, x ≠ bracket := fun x member =>
          plain x (List.mem_cons_of_mem c (List.mem_cons_of_mem _ (List.mem_cons_of_mem d member)))
        rw [if_neg first, if_neg (by decide), if_pos rfl]
        dsimp only
        rw [if_neg (plain d (List.mem_cons_of_mem c (List.mem_cons_of_mem _ List.mem_cons_self)))]
        obtain ⟨pairs, left, scanned, all, spans⟩ := @ih later ((c.2, d.2) :: ep) (Nat.le_succ_of_le few)
        rw [List.length_cons, Fits.cons (.inl few)] at all
        refine ⟨pairs, left, scanned, all, fun none => ?_⟩
        rw [spans none, List.map_cons, List.reverse_cons, List.append_assoc]
        rfl

/-! The class. -/

theorem within_iff (spans : List (Nat × Nat)) (r : Nat) : within spans r = true ↔ Inside spans r := by
  simp [within, Inside]

/-- The spans of the items take what the items say. -/
theorem accepts_iff {text : List Letter} {items : List Item} {spans : List (Nat × Nat)}
    (inside : ∀ r, Inside spans r ↔ Inside (start text ++ items.map Item.span) r) (r : Nat) :
    accepts (if negated text then .NCCLASS else .CCLASS) spans r = true ↔
      if negated text then ¬ Inside (items.map Item.span) r ∧ r ≠ newline else Inside (items.map Item.span) r := by
  have all := inside r
  rw [start] at all
  by_cases negates : negated text = true
  · rw [if_pos negates, List.singleton_append, inside_cons] at all
    rw [if_pos negates, if_pos negates, accepts, if_pos rfl, Bool.not_eq_true', Bool.eq_false_iff, ne_eq, within_iff, all, not_or, and_comm]
    refine and_congr_right fun _ => not_congr ?_
    constructor
    · rintro ⟨low, high⟩
      exact Nat.le_antisymm high low
    · rintro rfl
      exact ⟨Nat.le_refl _, Nat.le_refl _⟩
  · rw [if_neg negates, List.nil_append] at all
    rw [if_neg negates, if_neg negates, accepts, if_neg (by decide), within_iff, all]

/-- The compiler once the class and its negation are read. -/
theorem bldcclass_eq {s s' : State} {text : List Letter} (room : s.nclass < NCLASS) (within : ClassText s text s') :
    ∃ c rest s1, c :: rest = body text ++ [bracket] ∧ Reads s1 rest { s' with nclass := s.nclass + 1 } ∧
      bldcclass s = (spans (s1.exprp.length + 2) (start text) c.1 c.2 s1).bind fun x =>
        .ok (if negated text then .NCCLASS else .CCLASS, { x.2 with yyclassp := compile x.1.reverse }) := by
  have compiles : ∀ ep : List (Nat × Nat), merge (sort ep.length ep.reverse) = compile ep.reverse := fun ep => by
    rw [compile, List.length_reverse]
  obtain ⟨c, rest, s1, whole, read, reads⟩ := (within.reads.nclass (s.nclass + 1)).next
  have carets : (¬ c.1 = true ∧ c.2 = 94) ↔ c = caret := by
    rw [Prod.ext_iff, Bool.not_eq_true]
    rfl
  have negates : negated text = true ↔ c = caret := by
    cases text with
    | nil =>
        rw [(List.cons.inj whole).1]
        decide
    | cons d text =>
        rw [(List.cons.inj whole).1]
        simp [negated]
  unfold bldcclass
  rw [if_neg (Nat.not_le.mpr room)]
  dsimp only
  rw [read]
  dsimp only
  simp only [carets, ← negates]
  by_cases inverted : negated text = true
  · obtain ⟨text, rfl⟩ : ∃ text', text = c :: text' := by
      cases text with
      | nil => exact absurd inverted (by decide)
      | cons d text => exact ⟨text, by rw [(List.cons.inj whole).1]⟩
    obtain rfl : rest = text ++ [bracket] := (List.cons.inj whole).2
    obtain ⟨d, rest, s2, same, read', reads⟩ := reads.next
    refine ⟨d, rest, s2, by rw [body, if_pos inverted, List.tail_cons]; exact same, reads, ?_⟩
    simp only [inverted, if_true, read', start, compiles]
    rfl
  · refine ⟨c, rest, s1, by rw [body, if_neg inverted]; exact whole, reads, ?_⟩
    simp only [inverted, if_false, start, compiles, Bool.false_eq_true]
    rfl

/-- `bldcclass` is exact: there are too many classes, or a dash that stands
alone, or the runes and ranges fit; 33 of them do if some are joined. -/
theorem bldcclass_exact_iff {s s' : State} {text : List Letter} (within : ClassText s text s') :
    Exact text s' (bldcclass s) ↔ NCLASS ≤ s.nclass ∨ dangling (start text).length (body text) = true ∨
      ∃ items, Items (body text) items ∧ Fits (start text).length items ∧
        ((start text).length + items.length = 33 →
          ¬ Separate (sort (start text ++ items.map Item.span).length (start text ++ items.map Item.span))) := by
  by_cases many : NCLASS ≤ s.nclass
  · rw [bldcclass, if_pos many]
    exact iff_of_true trivial (.inl many)
  obtain ⟨c, rest, s1, whole, reads, compiles⟩ := bldcclass_eq (Nat.lt_of_not_le many) within
  have inside : ∀ d ∈ body text, d ∈ text := by
    intro d member
    rw [body] at member
    split at member
    · exact List.mem_of_mem_tail member
    · exact member
  have nonzero : ∀ d ∈ body text, d.2 ≠ 0 := fun d member => (within.plain d (inside d member)).1
  have plain : ∀ d ∈ body text, d ≠ bracket := fun d member => (within.plain d (inside d member)).2
  have spoken : ∀ d ∈ body text ++ [bracket], d.2 ≠ 0 := by
    intro d member
    rcases List.mem_append.mp member with here | last
    · exact nonzero d here
    · rw [List.mem_singleton.mp last]
      decide
  have enough : (body text).length < s1.exprp.length + 2 := by
    have size := congrArg List.length whole
    have consumed := reads.length fun d member => spoken d (whole ▸ List.mem_cons_of_mem c member)
    rw [List.length_cons, List.length_append, List.length_singleton] at size
    omega
  have first : (start text).length ≤ 33 := by
    rw [start]
    split <;> decide
  have palindrome : (start text).reverse = start text := by
    rw [start]
    split <;> rfl
  have errors := @scan_none_iff _ (start text) _ rfl plain
  rw [compiles]
  rcases @spans_scan _ (start text) _ _ _ _ _ whole nonzero reads enough with ⟨none, message, stops⟩ | ⟨pairs, left, st, some, goes, later⟩
  · rw [stops]
    rw [whole] at none
    exact iff_of_true trivial (.inr (.inl (errors.mp none)))
  · rw [goes]
    rw [whole] at some
    have clean : ¬ dangling (start text).length (body text) = true := fun dangles => by
      rw [errors.mpr dangles] at some
      cases some
    constructor
    · rintro ⟨consumed, -, space, -, -, items, written, -⟩
      obtain ⟨pairs', left', scanned, all, spans⟩ := scan_items written plain first
      obtain ⟨rfl, rfl⟩ := Prod.mk.inj (Option.some.inj (some.symm.trans scanned))
      have none : left = [] := by
        have less := later.length fun d member => spoken d (scan_left some d member)
        have same : st.exprp = s'.exprp := consumed
        rw [same] at less
        exact List.eq_nil_of_length_eq_zero (Nat.le_zero.mp (Nat.le_of_add_le_add_left less))
      refine .inr (.inr ⟨items, written, all.mp none, fun full separate => ?_⟩)
      have reversed : pairs.reverse = start text ++ items.map Item.span := by
        rw [spans none, List.reverse_append, List.reverse_reverse, palindrome]
      dsimp only at space
      rw [reversed, (compiled _).full.mpr separate, List.length_append, List.length_map, full] at space
      omega
    · rintro (full | dangles | ⟨items, written, fits, touches⟩)
      · exact absurd full many
      · exact absurd dangles clean
      · obtain ⟨pairs', left', scanned, all, spans⟩ := scan_items written plain first
        obtain ⟨rfl, rfl⟩ := Prod.mk.inj (Option.some.inj (some.symm.trans scanned))
        have none : left = [] := all.mpr fits
        rw [none] at later
        have reversed : pairs.reverse = start text ++ items.map Item.span := by
          rw [spans none, List.reverse_append, List.reverse_reverse, palindrome]
        obtain ⟨sorted, separate, same, short, full⟩ := compiled (start text ++ items.map Item.span)
        have size : (compile (start text ++ items.map Item.span)).length ≤ 32 := by
          have count : (start text ++ items.map Item.span).length = (start text).length + items.length := by
            rw [List.length_append, List.length_map]
          have room := fits.room
          by_contra long
          exact touches (by omega) (full.mp (by omega))
        have exprp : st.exprp = s'.exprp := (congrArg State.exprp later).symm
        have lexdone : st.lexdone = s'.lexdone := (congrArg State.lexdone later).symm
        refine ⟨exprp, lexdone, ?_⟩
        dsimp only
        rw [reversed]
        exact ⟨by omega, sorted, separate, items, written, fun r => accepts_iff same r⟩

/-- A compiler that is about to read a class. -/
def reading (exprp : List UInt8) : State := ⟨[], [], [], 0, false, 0, exprp, false, 0, 0, []⟩

theorem bldcclass_negated : Exact [caret, (false, 97), dash, (false, 122)] (reading []) (bldcclass (reading [0x5E, 0x61, 0x2D, 0x7A, 0x5D])) := by
  refine (@bldcclass_exact_iff (reading [0x5E, 0x61, 0x2D, 0x7A, 0x5D]) (reading []) [caret, (false, 97), dash, (false, 122)] ⟨?_, ?_⟩).mpr ?_
  · iterate 5 refine ⟨_, rfl, ?_⟩
    rfl
  · simp [caret, dash, bracket]
  · exact .inr (.inr ⟨[.range 97 122], Items.range (by decide) Items.nil, .inl (by decide), fun many => absurd many (by decide)⟩)

theorem long_class_text : ClassText (reading (List.replicate 34 0x61 ++ [0x5D])) (List.replicate 34 (false, 97)) (reading []) := by
  refine ⟨?_, ?_⟩
  · iterate 35 refine ⟨_, rfl, ?_⟩
    rfl
  · simp [bracket]

/-- Of a class of 34 runes the bracket is not read. -/
theorem long_class_cut : ClassText (reading (List.replicate 34 0x61 ++ [0x5D])) (List.replicate 34 (false, 97)) (reading []) ∧
    ¬ Exact (List.replicate 34 (false, 97)) (reading []) (bldcclass (reading (List.replicate 34 0x61 ++ [0x5D]))) := by
  refine ⟨long_class_text, fun exact' => ?_⟩
  have left : ((bldcclass (reading (List.replicate 34 0x61 ++ [0x5D]))).toOption.map fun x => x.2.exprp) = some [0x5D] := by decide
  cases compiled : bldcclass (reading (List.replicate 34 0x61 ++ [0x5D])) with
  | error message =>
      rw [compiled] at left
      cases left
  | ok x =>
      rw [compiled] at left exact'
      have consumed : x.2.exprp = [] := exact'.1
      rw [Except.toOption, Option.map_some, consumed] at left
      cases left

end Goken.Proofs.Cclass
