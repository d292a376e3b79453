import Goken.Lib.Outcome
import Goken.Proofs.Hufftab

/-! `inflate` on arbitrary input. -/

namespace Goken.Proofs.Inflate
open Goken.Inflate Goken.Proofs.Hufftab Lib.Bits Lib.Canonical Lib.Outcome Lib.Steps

/-- `inflate` returned. -/
def Returned : Stop → Prop
  | .ret _ => True
  | .fault => False

/-! The register. -/

/-- No stray bits in the register, and not many. -/
structure Sane (i : Input) : Prop where
  small : i.sreg < 2 ^ i.nbits
  few : i.nbits ≤ 23

/-- What is left to read; every byte that moves to the register counts, too. -/
def weight (i : Input) : Nat := 9 * i.rest.length + i.nbits

structure Filled (n : Nat) (i i' : Input) : Prop where
  sane : Sane i'
  enough : n ≤ i'.nbits
  more : i.nbits ≤ i'.nbits
  same : i'.sreg % 2 ^ i.nbits = i.sreg
  total : 8 * i'.rest.length + i'.nbits = 8 * i.rest.length + i.nbits

theorem sregfill_spec {n : Nat} (short : n ≤ 16) {i : Input} (sane : Sane i) : Ensures Returned (Filled n i) (sregfill n i) := by
  obtain ⟨sreg, nbits, rest⟩ := i
  simp only [sregfill]
  induction rest generalizing sreg nbits with
  | nil =>
    rw [fill]
    split
    · exact .error trivial
    · exact .ok ⟨sane, by simp only; omega, Nat.le_refl _, Nat.mod_eq_of_lt sane.small, rfl⟩
  | cons c rest ih =>
    rw [fill]
    split
    next less =>
      obtain ⟨small, few⟩ := sane
      simp only at small few
      have value := or_shiftLeft small c.toNat
      have byte : c.toNat < 2 ^ 8 := c.toNat_lt
      have next := ih (sreg ||| c.toNat <<< nbits) (nbits + 8) ⟨by
        simp only
        have := Nat.mul_le_mul_right (2 ^ nbits) (show c.toNat ≤ 255 by omega)
        rw [value, Nat.pow_add]
        omega, by simp only; omega⟩
      refine next.mono fun i' filled => ?_
      obtain ⟨sane, enough, more, same, total⟩ := filled
      simp only at more same total
      refine ⟨sane, enough, by simp only; omega, ?_, by simp only [List.length_cons]; omega⟩
      simp only
      rw [← Nat.mod_mod_of_dvd i'.sreg (Nat.pow_dvd_pow 2 (Nat.le_add_right nbits 8)), same, value, Nat.mul_add_mod',
        Nat.mod_eq_of_lt small]
    next more => exact .ok ⟨sane, by simp only; omega, Nat.le_refl _, Nat.mod_eq_of_lt sane.small, rfl⟩

theorem Filled.weight_le {n : Nat} {i i' : Input} (filled : Filled n i i') : weight i' ≤ weight i := by
  have more := filled.more
  have total := filled.total
  simp only [weight]
  omega

theorem Filled.weight_lt {n : Nat} {i i' : Input} (filled : Filled n i i') (less : i.nbits < n) : weight i' < weight i := by
  have enough := filled.enough
  have total := filled.total
  simp only [weight]
  omega

theorem drop_sane {i : Input} (sane : Sane i) {n : Nat} (enough : n ≤ i.nbits) : Sane (i.drop n) ∧ weight (i.drop n) + n = weight i := by
  refine ⟨⟨?_, ?_⟩, ?_⟩
  · simp only [Input.drop, Nat.shiftRight_eq_div_pow]
    rw [Nat.div_lt_iff_lt_mul (Nat.two_pow_pos n), ← Nat.pow_add, Nat.sub_add_cancel enough]
    exact sane.small
  · have := sane.few
    simp only [Input.drop]
    omega
  · simp only [weight, Input.drop]
    omega

/-- Reading `n` bits. -/
theorem bits_spec {n : Nat} (short : n ≤ 16) {i : Input} (sane : Sane i) :
    Ensures Returned (fun r => r.1 < 2 ^ n ∧ Sane r.2 ∧ weight r.2 + n ≤ weight i) (bits n i) := by
  refine (sregfill_spec short sane).bind fun i' filled => ?_
  obtain ⟨sane', lighter⟩ := drop_sane filled.sane filled.enough
  have less := filled.weight_le
  refine .ok ⟨?_, sane', by simp only; omega⟩
  simp only [Nat.shiftLeft_eq, Nat.one_mul, Nat.and_two_pow_sub_one_eq_mod]
  exact Nat.mod_lt _ (Nat.two_pow_pos n)

/-- More bits in the register can only make a prefix larger. -/
theorem rev_le {k x y : Nat} (small : y < 2 ^ k) (same : x % 2 ^ k = y) (n : Nat) : rev n y ≤ rev n x := by
  by_cases short : n ≤ k
  · exact Nat.le_of_eq (rev_congr short (by rw [same, Nat.mod_eq_of_lt small]))
  · obtain ⟨d, rfl⟩ := Nat.exists_eq_add_of_le (Nat.le_of_not_le short)
    rw [rev_of_lt (Nat.le_add_right k d) small, Nat.add_sub_cancel_left, rev_add k d x]
    have : rev k y = rev k x := rev_congr (Nat.le_refl k) (by rw [same, Nat.mod_eq_of_lt small])
    rw [this]
    exact Nat.le_add_right _ _

/-! Looking up a symbol. -/

section Lookup

variable {U : Nat} (wide : 32 ≤ U) {hb : List Nat} {flatbits : Nat} {h : Huff}
variable (lengths : ∀ b ∈ hb, b < MaxHuffBits) (leaves : hb.length ≤ MaxLeaf) (flat : flatbits ≤ MaxFlatBits)
variable (built : Built U hb flatbits h)

/-- The symbol whose code comes next. -/
def Decoded (hb : List Nat) (i : Input) (symbol : Nat) (i' : Input) : Prop :=
  ∃ (b : Nat) (f : Input), b ≠ 0 ∧ Filled b i f ∧ hb[symbol]? = some b ∧ codeOf hb symbol b = rev b f.sreg ∧ i' = f.drop b

theorem Decoded.lighter {i i' : Input} {symbol : Nat} (decoded : Decoded hb i symbol i') : Sane i' ∧ weight i' < weight i := by
  obtain ⟨b, f, positive, filled, _, _, rfl⟩ := decoded
  obtain ⟨sane, lighter⟩ := drop_sane filled.sane filled.enough
  have := filled.weight_le
  exact ⟨sane, by omega⟩

/-- The bits that `hdecsym` compares with the codes. -/
theorem reversed (sreg : Nat) {nb : Nat} (short : nb ≤ 16) :
    shr (revtab (sreg &&& 0xff) <<< 8 ||| revtab (sreg >>> 8 &&& 0xff)) (16 - nb) = .ok (rev nb sreg) := by
  have byte : ∀ x, x &&& 0xff = x % 256 := fun x => Nat.and_two_pow_sub_one_eq_mod x 8
  have low := revtab_eq ⟨sreg % 256, Nat.mod_lt _ (by decide)⟩
  have high := revtab_eq ⟨sreg >>> 8 % 256, Nat.mod_lt _ (by decide)⟩
  simp only at low high
  have value : rev 8 (sreg % 256) * 2 ^ 8 + rev 8 (sreg >>> 8 % 256) = rev 16 sreg := by
    rw [rev_add 8 8, Nat.shiftRight_eq_div_pow, ← rev_mod 8 sreg, ← rev_mod 8 (sreg / 2 ^ 8)]
    rfl
  rw [byte, byte, low, high, Nat.or_comm, or_shiftLeft (rev_lt 8 _), value,
    show ((16 : Int) - nb) = ((16 - nb : Nat) : Int) by omega, shr_ok, rev_shorter short]

theorem Filled.trans {n m : Nat} {i i' i'' : Input} (first : Filled n i i') (second : Filled m i' i'') : Filled m i i'' := by
  refine ⟨second.sane, second.enough, Nat.le_trans first.more second.more, ?_, second.total.trans first.total⟩
  rw [← Nat.mod_mod_of_dvd i''.sreg (Nat.pow_dvd_pow 2 first.more), second.same, first.same]

include wide lengths leaves built in
/-- The loop of `hdecsym`, once it is past all codes shorter than `nb`. -/
theorem hdecloop_spec : ∀ (n nb : Nat) {i : Input}, Sane i → nb + n = longest hb + 1 → min flatbits (longest hb) < nb →
    (nb ≤ longest hb → 0 < total (counts hb) nb) → total (counts hb) (nb - 1) ≤ rev (nb - 1) i.sreg →
    Ensures Returned (fun r => Decoded hb i r.1 r.2) (hdecloop U h n nb i) := by
  intro n
  induction n with
  | zero => exact fun nb i _ _ _ _ _ => .error trivial
  | succ n ih =>
    intro nb i sane sum above some_ past
    have inside : longest hb < MaxHuffBits := lengths _ (longest_mem built.nonempty)
    simp only [MaxHuffBits] at inside
    rw [hdecloop]
    refine (sregfill_spec (show (nb : Int).toNat ≤ 16 by omega) sane).bind fun f filled => ?_
    rw [Int.toNat_natCast] at filled
    have fits := built.fits nb (by omega)
    have bound : total (counts hb) nb ≤ 2 ^ 17 := Nat.le_trans fits (Nat.pow_le_pow_right (by decide) (by omega))
    have later : total (counts hb) (nb - 1) ≤ rev (nb - 1) f.sreg :=
      Nat.le_trans past (rev_le sane.small filled.same (nb - 1))
    have maxcode : load MaxHuffBits h.maxcode (nb : Int) = .ok (total (counts hb) nb - 1) := by
      rw [load_ok (show nb < MaxHuffBits by simp only [MaxHuffBits]; omega) (built.maxcode nb (by omega)),
        show (total (counts hb) nb - 1 : Int) = ((total (counts hb) nb - 1 : Nat) : Int) by have := some_ (by omega); omega,
        wrap_nat wide (by omega)]
    simp only [reversed f.sreg (show nb ≤ 16 by omega), maxcode, bind, Except.bind]
    have half : rev nb f.sreg / 2 = rev (nb - 1) f.sreg := by
      have := rev_shorter (show nb - 1 ≤ nb by omega) f.sreg
      rwa [show nb - (nb - 1) = 1 by omega, Nat.pow_one] at this
    have positive := some_ (by omega)
    refine Ensures.ite (fun small => ?_) fun large => ?_
    · have low : first (counts hb) nb ≤ rev nb f.sreg := by
        obtain ⟨k, rfl⟩ : ∃ k, nb = k + 1 := ⟨nb - 1, by omega⟩
        simp only [Nat.add_sub_cancel] at half later
        rw [first]
        omega
      obtain ⟨symbol, found, code⟩ := exists_code (show nb ≠ 0 by omega) low (by omega)
      obtain ⟨last, loaded, place, room⟩ := symbol_slot wide leaves (fun b member => built.last b (le_longest member)) found
        (by omega) (by simp only [MaxHuffBits]; omega) fits
      have listed : load MaxLeaf h.decode (slot hb symbol nb : Int) = .ok symbol :=
        load_ok (Nat.lt_of_lt_of_le room leaves) (built.decode symbol nb found (by have := built.minbits; omega))
      rw [code] at place
      simp only [shr_ok, loaded, place, listed]
      refine .ok ⟨nb, f, by omega, filled, found, code, ?_⟩
      simp [Input.drop, Nat.shiftRight_eq_div_pow]
    · have next := ih (nb + 1) filled.sane (by omega) (by omega) (fun _ => by rw [total]; omega) (by simpa using by omega)
      refine next.mono fun r decoded => ?_
      obtain ⟨b, f', nonzero, filled', rest⟩ := decoded
      exact ⟨b, f', nonzero, filled.trans filled', rest⟩

end Lookup

/-- A table as `inflate` builds it. -/
structure Proper {U : Nat} (tab : Tab U) : Prop where
  positive : 0 < tab.flatbits
  flat : tab.flatbits ≤ MaxFlatBits
  leaves : tab.hb.length ≤ MaxLeaf
  lengths : ∀ b ∈ tab.hb, b < MaxHuffBits

section Table

variable {U : Nat} (wide : 32 ≤ U) {tab : Tab U} (proper : Proper tab)

include wide proper in
theorem Proper.cases : longest tab.hb = 0 ∧ tab.huff = ⟨0, 0, 0, .empty, .empty, .empty, .empty⟩ ∨
    Built U tab.hb tab.flatbits tab.huff := by
  have result := tab.built
  rcases hufftab_spec wide proper.flat proper.positive proper.leaves proper.lengths with
    ⟨empty, same⟩ | ⟨_, failed, _⟩ | ⟨h, same, built⟩
  · rw [same, Except.ok.injEq, Option.some.injEq] at result
    exact Or.inl ⟨empty, result.symm⟩
  · rw [failed] at result
    cases result
  · rw [same, Except.ok.injEq, Option.some.injEq] at result
    exact Or.inr (result ▸ built)

include wide proper in
theorem Proper.minbits : tab.huff.minbits ≤ 16 := by
  have flat := proper.flat
  simp only [MaxFlatBits, LitlenBits] at flat
  rcases proper.cases wide with ⟨_, same⟩ | built
  · simp [same]
  · have := built.minbits.2
    omega

include proper in
/-- Whether some code starts like the bits in the register, in terms of the
totals that `hufftab` computes. -/
theorem assigned_iff (i : Input) : Assigned tab i ↔ rev (min tab.flatbits (longest tab.hb)) i.sreg *
    2 ^ (longest tab.hb - min tab.flatbits (longest tab.hb)) < total (counts tab.hb) (longest tab.hb) := by
  have lengths : ∀ b ∈ tab.hb, b ≤ 16 := fun b member => Nat.le_of_lt_succ (proper.lengths b member)
  have long : longest tab.hb ≤ 16 := by
    by_cases empty : longest tab.hb = 0
    · omega
    · exact lengths _ (longest_mem empty)
  have split : 2 ^ (16 - min tab.flatbits (longest tab.hb)) =
      2 ^ (longest tab.hb - min tab.flatbits (longest tab.hb)) * 2 ^ (16 - longest tab.hb) := by
    rw [← Nat.pow_add]
    congr 1
    omega
  rw [Assigned, rev_of_lt (show min tab.flatbits (longest tab.hb) ≤ 16 by omega) (Nat.mod_lt _ (Nat.two_pow_pos _)), rev_mod,
    ← total_counts lengths, total_longest long, split, ← Nat.mul_assoc, Nat.mul_lt_mul_right (Nat.two_pow_pos _)]

include proper in
theorem not_assigned_of_empty (empty : longest tab.hb = 0) (i : Input) : ¬ Assigned tab i := by
  rw [assigned_iff proper, empty]
  simp [total, counts]

/-- What a lookup can give. -/
def Found (hb : List Nat) (nb : Nat) (i : Input) : Looked → Prop
  | .again nb' i' => nb' ≤ 16 ∧ i'.nbits < nb' ∧ Filled nb i i'
  | .symbol c i' => Decoded hb i c i'

/-- The entry of `flat` that the register selects. -/
private theorem load_flat {h : Huff} {fb : Nat} (flatmask : h.flatmask = 2 ^ fb - 1) (flat : fb ≤ MaxFlatBits) (i : Input) {c : Int}
    (found : h.flat (rev fb (rev fb i.sreg)) = some c) :
    load (1 <<< MaxFlatBits) h.flat ((i.sreg &&& h.flatmask : Nat) : Int) = .ok c := by
  rw [rev_rev] at found
  rw [flatmask, Nat.and_two_pow_sub_one_eq_mod]
  refine load_ok ?_ found
  rw [Nat.shiftLeft_eq, Nat.one_mul]
  exact Nat.lt_of_lt_of_le (Nat.mod_lt _ (Nat.two_pow_pos fb)) (Nat.pow_le_pow_right (by decide) flat)

include wide proper in
theorem lookup_spec {nb : Nat} (short : nb ≤ 16) {i : Input} (sane : Sane i)
    (assigned : ∀ f, sregfill nb i = .ok f → Assigned tab f) :
    Ensures Returned (Found tab.hb nb i) (lookup U tab.huff nb i) := by
  have spec := sregfill_spec short sane
  cases result : sregfill nb i with
  | error stop =>
    rw [result] at spec
    simp only [lookup, result, bind, Except.bind]
    exact .error spec.of_error
  | ok f =>
    rw [result] at spec
    have filled : Filled nb i f := spec.of_ok
    have code := assigned f result
    rcases proper.cases wide with ⟨empty, _⟩ | built
    · exact absurd code (not_assigned_of_empty proper empty f)
    · have flat : min tab.flatbits (longest tab.hb) ≤ MaxFlatBits := Nat.le_trans (Nat.min_le_left _ _) proper.flat
      have few := filled.sane.few
      rw [assigned_iff proper] at code
      by_cases direct : rev (min tab.flatbits (longest tab.hb)) f.sreg < total (counts tab.hb) (min tab.flatbits (longest tab.hb))
      · obtain ⟨symbol, b, found, nonzero, le, starts, entry⟩ := built.direct _ (rev_lt _ _) direct
        simp only [MaxFlatBits, LitlenBits] at flat
        rw [rev_shorter le] at starts
        simp only [lookup, result, bind, Except.bind, load_flat built.flatmask flat f entry, pure, Except.pure]
        rw [show (((symbol : Int) * 256 + b) % 256).toNat = b by omega, show (((symbol : Int) * 256 + b) / 256).toNat = symbol by omega]
        by_cases wait : b > f.nbits
        · rw [if_pos wait, if_pos (by omega)]
          exact .ok ⟨by omega, wait, filled⟩
        · rw [if_neg wait]
          exact .ok ⟨b, f, nonzero, ⟨filled.sane, by omega, filled.more, filled.same, filled.total⟩, found, starts.symm, rfl⟩
      · obtain ⟨b, above, le, entry, some_, past⟩ := built.longer _ (rev_lt _ _) (by omega) code
        have decoded := hdecloop_spec wide proper.lengths proper.leaves built (longest tab.hb + 1 - b) b filled.sane (by omega) above
          (fun _ => some_) (Nat.le_trans past (by
            rw [← rev_shorter (show min tab.flatbits (longest tab.hb) ≤ b - 1 by omega) f.sreg]
            exact Nat.div_mul_le_self _ _))
        simp only [lookup, result, bind, Except.bind, load_flat built.flatmask flat f entry, pure, Except.pure]
        rw [show (((b : Int) * 256 + 255) % 256).toNat = 255 by omega, if_pos (show 255 > f.nbits by omega), if_neg (by simp)]
        rw [hdecsym, if_pos (by omega), show ((b : Int) * 256 + 255) / 256 = b by omega, built.maxbits,
          show ((longest tab.hb : Int) + 1 - b).toNat = longest tab.hb + 1 - b by omega]
        refine Ensures.bind decoded fun r decoded => ?_
        obtain ⟨b, f', nonzero, filled', rest⟩ := decoded
        exact .ok ⟨b, f', nonzero, filled.trans filled', rest⟩

include wide proper in
/-- Outside of the code a lookup goes wrong: the table was not written, or the
entry says -1 and `hdecsym` looks for codes of that length. -/
theorem lookup_fault {nb : Nat} (short : nb ≤ 16) {i f : Input} (sane : Sane i) (result : sregfill nb i = .ok f)
    (outside : ¬ Assigned tab f) : lookup U tab.huff nb i = .error .fault := by
  have spec := sregfill_spec short sane
  rw [result] at spec
  have few := spec.of_ok.sane.few
  rcases proper.cases wide with ⟨_, same⟩ | built
  · simp [lookup, result, bind, Except.bind, same, load, Cells.empty]
  · have flat : min tab.flatbits (longest tab.hb) ≤ MaxFlatBits := Nat.le_trans (Nat.min_le_left _ _) proper.flat
    rw [assigned_iff proper] at outside
    have entry := built.gap _ (rev_lt _ _) (Nat.not_lt.mp outside)
    simp only [lookup, result, bind, Except.bind, load_flat built.flatmask flat f entry]
    rw [show ((-1 : Int) % 256).toNat = 255 from rfl, if_pos (show 255 > f.nbits by omega), if_neg (by simp)]
    have start : hdecsym U f tab.huff (-1) = hdecloop U tab.huff (tab.huff.maxbits + 2) (-1) f := by
      rw [hdecsym, if_pos (by decide), show (-1 : Int) / 256 = -1 from rfl]
      congr 1
    rw [start, hdecloop]
    have nothing : sregfill 0 f = .ok f := by
      obtain ⟨sreg, nbits, rest⟩ := f
      cases rest <;> simp [sregfill, fill]
    simp [nothing, bind, Except.bind, shr, load]

end Table

/-! The machine. -/

/-- What is known of the history: every byte that can be asked for was written. -/
structure Kept (H : History) : Prop where
  cp : H.cp < HistorySize
  written : ∀ i < H.cp, H.his i ≠ none
  full : H.full = true → ∀ i < HistorySize, H.his i ≠ none

def Ready {U : Nat} : Ctl U → Prop
  | .block | .stored _ | .fini => True
  | .clen nb tab len nlit ndist => nb ≤ 16 ∧ Proper tab ∧ (∀ b ∈ len, b < 16) ∧ nlit ≤ Nlitlen ∧ ndist ≤ Noff
  | .litlen nb litlentab offtab | .off nb litlentab offtab _ => nb ≤ 16 ∧ Proper litlentab ∧ Proper offtab

structure Inv {U : Nat} (s : State U) : Prop where
  sane : Sane s.input
  kept : Kept s.history
  ready : Ready s.ctl

/-- Decreases with every step. -/
def rank {U : Nat} (s : State U) : Nat :=
  match s.ctl with
  | .fini => 0
  | .block => 2 * weight s.input + 1
  | .stored _ => 2 * weight s.input + 2
  | .clen nb _ _ _ _ | .litlen nb _ _ | .off nb _ _ _ => 2 * weight s.input + if nb ≤ s.input.nbits then 1 else 0

theorem dump_eq (his : Cells UInt8) : ∀ (l : List Nat), (∀ i ∈ l, i < HistorySize ∧ his i ≠ none) →
    (l.mapM fun (i : Nat) => load HistorySize his i) = .ok (l.map fun i => (his i).getD 0) := by
  intro l
  induction l with
  | nil => exact fun _ => rfl
  | cons i l ih =>
    intro written
    obtain ⟨inside, there⟩ := written i (by simp)
    obtain ⟨c, value⟩ := Option.ne_none_iff_exists'.mp there
    rw [List.mapM_cons, load_ok inside value, ih fun j member => written j (List.mem_cons_of_mem i member)]
    simp [value, bind, Except.bind, pure, Except.pure]

theorem dump_ok {his : Cells UInt8} {n : Nat} (size : n ≤ HistorySize) (written : ∀ i < n, his i ≠ none) :
    dump his n = .ok ((List.range n).map fun i => (his i).getD 0) := by
  refine dump_eq his (List.range n) fun i member => ?_
  rw [List.mem_range] at member
  exact ⟨by omega, written i member⟩

section Machine

variable (E : Env)

/-- What `put` and the copying loop leave alone. -/
structure Same (s s' : State E.ulong) : Prop where
  input : s'.input = s.input
  ctl : s'.ctl = s.ctl
  kept : Kept s'.history

theorem put_spec (c : UInt8) {s : State E.ulong} (kept : Kept s.history) :
    Ensures Returned (fun s' => Same E s s' ∧ (s'.history.full = true ∨ s'.history.full = s.history.full ∧
      s'.history.cp = s.history.cp + 1)) (put E c s) := by
  have written : ∀ i < s.history.cp + 1, Function.update s.history.his s.history.cp (some c) i ≠ none := by
    intro i less
    by_cases last : i = s.history.cp
    · simp [last]
    · rw [Function.update_of_ne last]
      exact kept.written i (by omega)
  simp only [put, store_ok _ c kept.cp, bind, Except.bind]
  by_cases wraps : s.history.cp + 1 = HistorySize
  · rw [wraps] at written
    rw [if_pos wraps, dump_ok (Nat.le_refl _) written]
    refine Ensures.ite (fun _ => ?_) fun _ => .error trivial
    exact .ok ⟨⟨rfl, rfl, by simp [HistorySize], by simp, fun _ => written⟩, Or.inl rfl⟩
  · rw [if_neg wraps]
    have room := kept.cp
    refine .ok ⟨⟨rfl, rfl, by simp only; omega, written, fun full i less => ?_⟩, Or.inr ⟨rfl, rfl⟩⟩
    by_cases last : i = s.history.cp
    · simp [last]
    · simp only [Function.update_of_ne last]
      exact kept.full full i less

theorem sregunget_spec {i : Input} : Ensures Returned (fun i' => Sane i' ∧ weight i' ≤ weight i) (sregunget i) := by
  rw [sregunget]
  refine Ensures.ite (fun _ => .error trivial) fun _ => .ok ⟨⟨by simp, by simp⟩, ?_⟩
  simp only [weight]
  omega

theorem endblock_spec {s : State E.ulong} (sane : Sane s.input) (kept : Kept s.history) :
    Ensures Returned (fun s' => Inv s' ∧ rank s' ≤ 2 * weight s.input + 1) (endblock E s) := by
  rw [endblock]
  refine Ensures.ite (fun _ => ?_) fun _ => .ok ⟨⟨sane, kept, trivial⟩, by simp [rank]⟩
  rw [dump_ok (Nat.le_of_lt kept.cp) kept.written]
  refine Ensures.ite (fun _ => .error trivial) fun _ => ?_
  refine sregunget_spec.bind fun i ⟨sane', _⟩ => ?_
  exact .ok ⟨⟨sane', kept, trivial⟩, by simp [rank]⟩

theorem get_spec {i : Input} (sane : Sane i) : Sane i.get.2 ∧ weight i.get.2 ≤ weight i ∧ (0 ≤ i.get.1 → weight i.get.2 < weight i) := by
  obtain ⟨sreg, nbits, rest⟩ := i
  cases rest with
  | nil => exact ⟨sane, Nat.le_refl _, fun there => by simp [Input.get] at there⟩
  | cons c rest =>
    refine ⟨⟨sane.small, sane.few⟩, ?_, fun _ => ?_⟩ <;>
    · simp only [Input.get, weight, List.length_cons]
      omega

theorem uncblock_spec {s : State E.ulong} (kept : Kept s.history) :
    Ensures Returned (fun s' => Inv s' ∧ rank s' ≤ 2 * weight s.input + 2) (uncblock E s) := by
  rw [uncblock]
  refine sregunget_spec.bind fun i ⟨sane, lighter⟩ => ?_
  obtain ⟨sane₁, lighter₁, _⟩ := get_spec sane
  obtain ⟨sane₂, lighter₂, _⟩ := get_spec sane₁
  obtain ⟨sane₃, lighter₃, _⟩ := get_spec sane₂
  obtain ⟨sane₄, lighter₄, _⟩ := get_spec sane₃
  refine Ensures.ite (fun _ => .error trivial) fun _ => ?_
  refine .ok ⟨⟨sane₄, kept, trivial⟩, ?_⟩
  show 2 * weight i.get.2.get.2.get.2.get.2 + 2 ≤ _
  omega

theorem table_spec {U : Nat} (wide : 32 ≤ U) (hb : List Nat) {flatbits : Nat} (positive : 0 < flatbits)
    (flat : flatbits ≤ MaxFlatBits) (leaves : hb.length ≤ MaxLeaf) (lengths : ∀ b ∈ hb, b < MaxHuffBits) :
    Ensures Returned (fun r => ∀ tab ∈ r, Proper tab) (table U hb flatbits) := by
  have made : ∀ h (built : hufftab U hb flatbits = .ok (some h)), Proper (Tab.mk hb flatbits h built) :=
    fun h built => ⟨positive, flat, leaves, lengths⟩
  have returns : ∀ stop, hufftab U hb flatbits ≠ .error stop := by
    intro stop failed
    rcases hufftab_spec wide flat positive leaves lengths with ⟨_, same⟩ | ⟨_, same, _⟩ | ⟨_, same, _⟩ <;>
    · rw [failed] at same
      cases same
  rw [table]
  split
  next h built =>
    refine .ok fun tab same => ?_
    cases same
    exact made h built
  next => exact .ok fun tab same => by cases same
  next stop failed => exact absurd failed (returns stop)

theorem fixedblock_spec {s : State E.ulong} (sane : Sane s.input) (kept : Kept s.history) :
    Ensures Returned (fun s' => Inv s' ∧ rank s' ≤ 2 * weight s.input + 1) (fixedblock E s) := by
  rw [fixedblock]
  have litlens_lt : ∀ b ∈ litlens, b < MaxHuffBits := by
    intro b member
    simp only [litlens, List.mem_append, List.mem_replicate] at member
    simp only [MaxHuffBits]
    omega
  have offlens_lt : ∀ b ∈ offlens, b < MaxHuffBits := by
    intro b member
    rw [List.eq_of_mem_replicate member]
    decide
  have litlens_le : litlens.length ≤ MaxLeaf := by
    simp only [litlens, List.length_append, List.length_replicate]
    decide
  have offlens_le : offlens.length ≤ MaxLeaf := by decide
  generalize litlens = lit at litlens_lt litlens_le ⊢
  generalize offlens = off at offlens_lt offlens_le ⊢
  refine (table_spec E.wide lit (by decide) (by decide) litlens_le litlens_lt).bind fun litlentab proper => ?_
  refine (table_spec E.wide off (by decide) (by decide) offlens_le offlens_lt).bind fun offtab proper' => ?_
  rcases litlentab with _ | litlentab
  · exact .error trivial
  rcases offtab with _ | offtab
  · exact .error trivial
  have lit := proper _ rfl
  have off := proper' _ rfl
  refine .ok ⟨⟨sane, kept, lit.minbits E.wide, lit, off⟩, ?_⟩
  simp only [rank]
  split <;> omega

theorem clens_spec : ∀ (order len : List Nat) {i : Input}, Sane i → len.length = Nclen → (∀ b ∈ len, b < 16) →
    Ensures Returned (fun r => r.1.length = Nclen ∧ (∀ b ∈ r.1, b < 16) ∧ Sane r.2 ∧ weight r.2 ≤ weight i) (clens order len i) := by
  intro order
  induction order with
  | nil => exact fun len i sane length small => .ok ⟨length, small, sane, Nat.le_refl _⟩
  | cons o order ih =>
    intro len i sane length small
    rw [clens]
    refine (bits_spec (by decide) sane).bind fun ⟨v, i'⟩ ⟨low, sane', lighter⟩ => ?_
    simp only at low sane' lighter
    refine (ih (len.set o v) sane' (by simpa using length) fun b member => ?_).mono
      fun r ⟨length, small, sane, less⟩ => ⟨length, small, sane, by omega⟩
    rcases List.mem_or_eq_of_mem_set member with old | new
    · exact small b old
    · omega

theorem dynamicblock_spec {s : State E.ulong} (sane : Sane s.input) (kept : Kept s.history) :
    Ensures Returned (fun s' => Inv s' ∧ rank s' ≤ 2 * weight s.input + 1) (dynamicblock E s) := by
  rw [dynamicblock]
  refine (bits_spec (by decide) sane).bind fun ⟨v, i⟩ ⟨_, sane₁, lighter₁⟩ => ?_
  simp only at sane₁ lighter₁
  refine Ensures.ite (fun _ => .error trivial) fun sizes => ?_
  refine Ensures.ite (fun _ => .error trivial) fun _ => ?_
  refine (clens_spec _ (List.replicate Nclen 0) sane₁ (by simp) (by simp [Nclen])).bind fun ⟨len, i'⟩ ⟨length, small, sane₂, lighter₂⟩ => ?_
  simp only at length small sane₂ lighter₂
  refine (table_spec E.wide _ (by decide) (by decide) (by rw [length]; decide) fun b member => ?_).bind fun lentab proper => ?_
  · have := small b member
    simp only [MaxHuffBits]
    omega
  rcases lentab with _ | lentab
  · exact .error trivial
  have proper := proper _ rfl
  refine .ok ⟨⟨sane₂, kept, proper.minbits E.wide, proper, by simp, by omega, by omega⟩, ?_⟩
  simp only [rank]
  split <;> omega

theorem lengths_spec {c : Nat} {len : List Nat} (small : ∀ b ∈ len, b < 16) {i : Input} (sane : Sane i) :
    Ensures Returned (fun r => (∀ b ∈ r.1, b < 16) ∧ Sane r.2 ∧ weight r.2 ≤ weight i) (lengths c len i) := by
  rw [lengths]
  refine Ensures.ite (fun low => .ok ⟨by simpa using low, sane, Nat.le_refl _⟩) fun _ => ?_
  refine Ensures.ite (fun _ => ?_) fun _ => Ensures.ite (fun _ => ?_) fun _ => Ensures.ite (fun _ => ?_) fun _ => .error trivial
  · refine (bits_spec (by decide) sane).bind fun ⟨j, i'⟩ ⟨_, sane', lighter⟩ => ?_
    simp only at sane' lighter
    cases last : len.getLast? with
    | none => exact .error trivial
    | some c =>
      refine .ok ⟨fun b member => ?_, sane', by simp only; omega⟩
      rw [List.eq_of_mem_replicate member]
      exact small c (List.mem_of_getLast? last)
  all_goals
    refine (bits_spec (by decide) sane).bind fun ⟨j, i'⟩ ⟨_, sane', lighter⟩ => ?_
    simp only at sane' lighter
    refine .ok ⟨fun b member => ?_, sane', by simp only; omega⟩
    rw [List.eq_of_mem_replicate member]
    decide

theorem clensym_spec {lentab : Tab E.ulong} {len : List Nat} {nlit ndist c : Nat} {s : State E.ulong} (sane : Sane s.input)
    (kept : Kept s.history) (proper : Proper lentab) (small : ∀ b ∈ len, b < 16)
    (lit : nlit ≤ Nlitlen) (dist : ndist ≤ Noff) :
    Ensures Returned (fun s' => Inv s' ∧ rank s' ≤ 2 * weight s.input + 1) (clensym E lentab len nlit ndist c s) := by
  rw [clensym]
  refine (lengths_spec small sane).bind fun ⟨more, i⟩ ⟨small', sane', lighter⟩ => ?_
  simp only at small' sane' lighter
  have all : ∀ b ∈ len ++ more, b < 16 := fun b member => (List.mem_append.mp member).elim (small b) (small' b)
  have below : ∀ {b : Nat}, b < 16 → b < MaxHuffBits := fun less => Nat.lt_trans less (by decide)
  refine Ensures.ite (fun _ => .error trivial) fun most => ?_
  refine Ensures.ite (fun _ => ?_) fun least => ?_
  · refine .ok ⟨⟨sane', kept, proper.minbits E.wide, proper, all, lit, dist⟩, ?_⟩
    simp only [rank]
    split <;> omega
  · refine (table_spec E.wide _ (by decide) (by decide) ?_ fun b member => below (all b (List.mem_of_mem_take member))).bind
      fun litlentab proper => ?_
    · rw [List.length_take]
      exact Nat.le_trans (Nat.min_le_left _ _) lit
    rcases litlentab with _ | litlentab
    · exact .error trivial
    refine (table_spec E.wide _ (by decide) (by decide) ?_ fun b member => below (all b (List.mem_of_mem_drop member))).bind
      fun offtab proper' => ?_
    · rw [List.length_drop]
      have room : Noff ≤ MaxLeaf := by decide
      omega
    rcases offtab with _ | offtab
    · exact .error trivial
    have lit' := proper _ rfl
    have off' := proper' _ rfl
    refine .ok ⟨⟨sane', kept, lit'.minbits E.wide, lit', off'⟩, ?_⟩
    simp only [rank]
    split <;> omega

theorem litlensym_spec {litlentab offtab : Tab E.ulong} {c : Nat} {s : State E.ulong} (sane : Sane s.input) (kept : Kept s.history)
    (lit : Proper litlentab) (off : Proper offtab) :
    Ensures Returned (fun s' => Inv s' ∧ rank s' ≤ 2 * weight s.input + 1) (litlensym E litlentab offtab c s) := by
  rw [litlensym]
  refine Ensures.ite (fun _ => ?_) fun _ => Ensures.ite (fun _ => ?_) fun _ => Ensures.ite (fun _ => .error trivial) fun high => ?_
  · refine (put_spec E _ kept).bind fun s' ⟨same, _⟩ => ?_
    refine .ok ⟨⟨same.input ▸ sane, same.kept, lit.minbits E.wide, lit, off⟩, ?_⟩
    simp only [rank, same.input]
    split <;> omega
  · exact endblock_spec E sane kept
  · obtain ⟨extra, base, found, found', short⟩ : ∃ e base, litlenextra[c - 257]? = some e ∧ litlenbase[c - 257]? = some base ∧
        e ≤ 5 := by
      have all : ∀ k < 31, litlenextra[k]? = some (litlenextra.getD k 0) ∧ litlenbase[k]? = some (litlenbase.getD k 0) ∧
          litlenextra.getD k 0 ≤ 5 := by decide
      exact ⟨_, _, all (c - 257) (by omega)⟩
    simp only [entry, found, found']
    refine (bits_spec (show extra ≤ 16 by omega) sane).bind fun ⟨v, i⟩ ⟨_, sane', lighter⟩ => ?_
    simp only at sane' lighter
    refine .ok ⟨⟨sane', kept, off.minbits E.wide, lit, off⟩, ?_⟩
    simp only [rank]
    split <;> omega

/-- The copying loop: behind the write pointer, or anywhere once the history is full. -/
theorem copy_spec : ∀ (len : Nat) (hq : Int) {s : State E.ulong}, Kept s.history → 0 ≤ hq → hq < HistorySize →
    (s.history.full = true ∨ hq < s.history.cp) → Ensures Returned (Same E s) (copy E len hq s) := by
  intro len
  induction len with
  | zero => exact fun hq s kept _ _ _ => .ok ⟨rfl, rfl, kept⟩
  | succ len ih =>
    intro hq s kept low high behind
    obtain ⟨k, rfl⟩ := Int.eq_ofNat_of_zero_le low
    have inside : k < HistorySize := by omega
    have written : s.history.his k ≠ none := by
      rcases behind with full | before
      · exact kept.full full k inside
      · exact kept.written k (by omega)
    obtain ⟨c, value⟩ := Option.ne_none_iff_exists'.mp written
    rw [copy, load_ok inside value]
    refine Ensures.value ((put_spec E c kept).bind fun s' ⟨same, moved⟩ => ?_)
    have room := same.kept.cp
    refine (ih _ same.kept ?_ ?_ ?_).mono fun s'' same' =>
      ⟨same'.input.trans same.input, same'.ctl.trans same.ctl, same'.kept⟩
    · split <;> omega
    · split
      · decide
      · omega
    · rcases moved with full | ⟨full, next⟩
      · exact Or.inl full
      · rw [full, next]
        refine behind.imp_right fun before => ?_
        split <;> omega

theorem offsym_spec {litlentab offtab : Tab E.ulong} {len c : Nat} {s : State E.ulong} (sane : Sane s.input) (kept : Kept s.history)
    (lit : Proper litlentab) (off : Proper offtab) :
    Ensures Returned (fun s' => Inv s' ∧ rank s' ≤ 2 * weight s.input + 1) (offsym E litlentab offtab len c s) := by
  rw [offsym]
  refine Ensures.ite (fun _ => .error trivial) fun high => ?_
  obtain ⟨extra, base, found, found', short, positive, reach⟩ : ∃ e base, offextra[c]? = some e ∧ offbase[c]? = some base ∧ e ≤ 16 ∧
      0 < base ∧ base + 2 ^ e ≤ HistorySize + 1 := by
    have all : ∀ k < 30, offextra.getD k 0 ≤ 16 ∧ 0 < offbase.getD k 0 ∧
        offbase.getD k 0 + 2 ^ offextra.getD k 0 ≤ HistorySize + 1 := by decide
    have there : ∀ k < 30, offextra[k]? = some (offextra.getD k 0) ∧ offbase[k]? = some (offbase.getD k 0) := by decide
    exact ⟨_, _, (there c (by omega)).1, (there c (by omega)).2, all c (by omega)⟩
  simp only [entry, found, found']
  refine (bits_spec short sane).bind fun ⟨v, i⟩ ⟨small, sane', lighter⟩ => ?_
  simp only at small sane' lighter
  refine Ensures.ite (fun _ => .error trivial) fun there => ?_
  have room := kept.cp
  simp only [HistorySize] at reach room
  refine (copy_spec E len _ (s := { s with input := i }) kept ?_ ?_ ?_).bind fun s' same => ?_
  · split <;> simp only [HistorySize] <;> omega
  · split <;> simp only [HistorySize] <;> omega
  · by_cases full : s.history.full = true
    · exact Or.inl full
    · right
      rw [if_neg fun below => there ⟨below, full⟩]
      simp only
      omega
  · have input := same.input
    simp only at input
    refine .ok ⟨⟨?_, same.kept, lit.minbits E.wide, lit, off⟩, ?_⟩
    · simp only [input]
      exact sane'
    · simp only [rank, input]
      split <;> omega

/-- A lookup that has to be repeated needs at least one more byte for it. -/
private theorem rank_again {nb nb' : Nat} {i i' : Input} (wait : i'.nbits < nb') (filled : Filled nb i i') :
    2 * weight i' + (if nb' ≤ i'.nbits then 1 else 0) < 2 * weight i + if nb ≤ i.nbits then 1 else 0 := by
  rw [if_neg (by omega)]
  by_cases enough : nb ≤ i.nbits
  · have := filled.weight_le
    rw [if_pos enough]
    omega
  · have := filled.weight_lt (by omega)
    omega

/-- One step: while every lookup stays inside its code, nothing goes wrong. -/
theorem step_spec {s : State E.ulong} (inv : Inv s) (covered : s.Covered) :
    Ensures Returned (fun s' => Inv s' ∧ rank s' < rank s) (step E s) := by
  obtain ⟨ctl, final, input, history, out⟩ := s
  obtain ⟨sane, kept, ready⟩ := inv
  simp only at sane kept ready
  cases ctl with
  | fini => exact .error trivial
  | block =>
    rw [step]
    refine (bits_spec (by decide) sane).bind fun ⟨v, i⟩ ⟨_, sane', lighter⟩ => ?_
    dsimp only at sane' lighter ⊢
    split
    · refine (uncblock_spec E kept).mono fun s' ⟨inv, less⟩ => ⟨inv, ?_⟩
      simp only [rank] at less ⊢
      omega
    · refine (fixedblock_spec E sane' kept).mono fun s' ⟨inv, less⟩ => ⟨inv, ?_⟩
      simp only [rank] at less ⊢
      omega
    · refine (dynamicblock_spec E sane' kept).mono fun s' ⟨inv, less⟩ => ⟨inv, ?_⟩
      simp only [rank] at less ⊢
      omega
    · exact .error trivial
  | stored len =>
    cases len with
    | zero =>
      refine (endblock_spec E sane kept).mono fun s' ⟨inv, less⟩ => ⟨inv, ?_⟩
      simp only [rank] at less ⊢
      omega
    | succ len =>
      obtain ⟨sane', _, lighter⟩ := get_spec sane
      simp only [step]
      rcases got : input.get with ⟨c, i⟩
      rw [got] at sane' lighter
      simp only at sane' lighter ⊢
      refine Ensures.ite (fun _ => .error trivial) fun there => ?_
      refine (put_spec E _ kept).mono fun s' ⟨same, _⟩ => ⟨⟨same.input ▸ sane', same.kept, same.ctl ▸ trivial⟩, ?_⟩
      have := lighter (by omega)
      simp only [rank, same.ctl, same.input]
      omega
  | clen nb tab len nlit ndist =>
    obtain ⟨short, proper, small, lit, dist⟩ := ready
    rw [step]
    refine (lookup_spec E.wide proper short sane covered).bind fun looked found => ?_
    cases looked with
    | again nb' i =>
      obtain ⟨short', wait, filled⟩ := found
      exact .ok ⟨⟨filled.sane, kept, short', proper, small, lit, dist⟩, rank_again wait filled⟩
    | symbol c i =>
      obtain ⟨sane', lighter⟩ := Decoded.lighter found
      refine (clensym_spec E sane' kept proper small lit dist).mono fun s' ⟨inv, less⟩ => ⟨inv, ?_⟩
      simp only [rank] at less ⊢
      omega
  | litlen nb litlentab offtab =>
    obtain ⟨short, lit, off⟩ := ready
    rw [step]
    refine (lookup_spec E.wide lit short sane covered).bind fun looked found => ?_
    cases looked with
    | again nb' i =>
      obtain ⟨short', wait, filled⟩ := found
      exact .ok ⟨⟨filled.sane, kept, short', lit, off⟩, rank_again wait filled⟩
    | symbol c i =>
      obtain ⟨sane', lighter⟩ := Decoded.lighter found
      refine (litlensym_spec E sane' kept lit off).mono fun s' ⟨inv, less⟩ => ⟨inv, ?_⟩
      simp only [rank] at less ⊢
      omega
  | off nb litlentab offtab len =>
    obtain ⟨short, lit, off⟩ := ready
    rw [step]
    refine (lookup_spec E.wide off short sane covered).bind fun looked found => ?_
    cases looked with
    | again nb' i =>
      obtain ⟨short', wait, filled⟩ := found
      exact .ok ⟨⟨filled.sane, kept, short', lit, off⟩, rank_again wait filled⟩
    | symbol c i =>
      obtain ⟨sane', lighter⟩ := Decoded.lighter found
      refine (offsym_spec E sane' kept lit off).mono fun s' ⟨inv, less⟩ => ⟨inv, ?_⟩
      simp only [rank] at less ⊢
      omega

/-- A lookup that leaves its code is the end of the run. -/
theorem step_fault {s : State E.ulong} (inv : Inv s) (outside : ¬ s.Covered) : step E s = .error .fault := by
  obtain ⟨ctl, final, input, history, out⟩ := s
  obtain ⟨sane, kept, ready⟩ := inv
  simp only at sane kept ready
  cases ctl with
  | fini => exact absurd trivial outside
  | block => exact absurd trivial outside
  | stored len => exact absurd trivial outside
  | clen nb tab len nlit ndist =>
    simp only [State.Covered, not_forall] at outside
    obtain ⟨f, result, outside⟩ := outside
    simp only [step, lookup_fault E.wide ready.2.1 ready.1 sane result outside, bind, Except.bind]
  | litlen nb litlentab offtab =>
    simp only [State.Covered, not_forall] at outside
    obtain ⟨f, result, outside⟩ := outside
    simp only [step, lookup_fault E.wide ready.2.1 ready.1 sane result outside, bind, Except.bind]
  | off nb litlentab offtab len =>
    simp only [State.Covered, not_forall] at outside
    obtain ⟨f, result, outside⟩ := outside
    simp only [step, lookup_fault E.wide ready.2.2 ready.1 sane result outside, bind, Except.bind]

theorem start_inv (input : List UInt8) : Inv (start E input) :=
  ⟨⟨by simp [start], by simp [start]⟩, ⟨by simp [start, HistorySize], by simp [start], by simp [start]⟩, trivial⟩

private theorem toOption_eq {s s' : State E.ulong} (moves : (step E s).toOption = some s') : step E s = .ok s' := by
  cases result : step E s with
  | ok s'' =>
    rw [result] at moves
    exact congrArg Except.ok (Option.some.inj moves)
  | error stop =>
    rw [result] at moves
    cases moves

private theorem toOption_error {s : State E.ulong} {stop : Stop} (result : step E s = .error stop) :
    (step E s).toOption = none := by
  rw [result]
  rfl

theorem run_inv {input : List UInt8} {s : State E.ulong} (runs : Runs E input s) : Inv s := by
  induction runs with
  | refl => exact start_inv E input
  | @tail before after _ moves ih =>
    have result := toOption_eq E moves
    by_cases covered : before.Covered
    · have spec := step_spec E ih covered
      rw [result] at spec
      exact spec.of_ok.1
    · rw [step_fault E ih covered] at result
      cases result

/-- From a state all of whose successors stay inside their codes, `inflate` returns. -/
theorem returns_of_covered : ∀ (n : Nat) {s : State E.ulong}, rank s < n → Inv s →
    (∀ s', Reaches (fun s => (step E s).toOption) s s' → s'.Covered) →
    ∃ s' code, Reaches (fun s => (step E s).toOption) s s' ∧ step E s' = .error (.ret code) := by
  intro n
  induction n with
  | zero => exact fun less => absurd less (Nat.not_lt_zero _)
  | succ n ih =>
    intro s less inv covered
    have spec := step_spec E inv (covered s (Reaches.refl s))
    cases result : step E s with
    | error stop =>
      rw [result] at spec
      cases stop with
      | ret code => exact ⟨s, code, Reaches.refl s, result⟩
      | fault => exact spec.of_error.elim
    | ok s' =>
      rw [result] at spec
      obtain ⟨inv', less'⟩ := spec.of_ok
      have moves : (step E s).toOption = some s' := by
        rw [result]
        rfl
      obtain ⟨s'', code, reach, ret⟩ := ih (by omega) inv' fun s'' reach => covered s'' (Reaches.head moves reach)
      exact ⟨s'', code, Reaches.head moves reach, ret⟩

/-- `inflate` returns without touching anything it must not exactly if no lookup
meets bits that no code starts with. -/
theorem inflate_returns_iff (input : List UInt8) : Returns E input ↔ ∀ s, Runs E input s → s.Covered := by
  constructor
  · rintro ⟨s', code, runs', ret⟩ s runs
    by_contra outside
    have fault := step_fault E (run_inv E runs) outside
    have same := Reaches.unique (toOption_error E fault) (toOption_error E ret) runs runs'
    rw [same, ret] at fault
    cases fault
  · intro covered
    obtain ⟨s, code, runs, ret⟩ := returns_of_covered E (rank (start E input) + 1) (by omega) (start_inv E input) covered
    exact ⟨s, code, runs, ret⟩

end Machine

/-- A writer that takes everything, and enough memory. -/
def plain : Env := ⟨fun _ _ => true, fun _ => true, 64, by decide⟩

/-- A dynamic block whose code length code is empty. -/
def emptyCode : List UInt8 := [5, 0, 0, 0, 0]

theorem emptyCode_faults : ¬ Returns plain emptyCode := by
  rw [inflate_returns_iff]
  intro covered
  obtain ⟨s, moves, outside⟩ : ∃ s, (step plain (start plain emptyCode)).toOption = some s ∧ ¬ s.Covered := by
    refine ⟨_, rfl, fun covered => ?_⟩
    exact absurd (covered _ rfl) (by unfold Assigned; decide)
  exact outside (covered s (Reaches.single moves))

end Goken.Proofs.Inflate
