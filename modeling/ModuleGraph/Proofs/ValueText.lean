import ModuleGraph.Value
import ModuleGraph.Proofs.Except
import ModuleGraph.Proofs.JsonText
import Mathlib.Data.Int.Notation
import Mathlib.Data.List.TakeWhile

namespace ModuleGraph

open Json (Delimited IsNumber Token Partial toPartial itemsToPartial membersToPartial)

namespace Number

theorem toList_text_ofNat (n : ℕ) : (integer n).text.toList = Nat.toDigits 10 n := by
  change (Nat.repr n).toList = _
  exact Nat.toList_repr

theorem toList_text_negSucc (n : ℕ) :
    (integer (.negSucc n)).text.toList = '-' :: Nat.toDigits 10 (n + 1) := by
  change ("-" ++ Nat.repr (n + 1)).toList = _
  rw [String.toList_append, Nat.toList_repr]
  rfl

theorem isDigit_toDigits (n : ℕ) : ∀ c ∈ Nat.toDigits 10 n, c.isDigit = true := fun _ hc =>
  Nat.isDigit_of_mem_toDigits (by decide) (by decide) hc

theorem eq_nil_of_leading_zero {n : ℕ} {rest : List Char}
    (h : Nat.toDigits 10 n = '0' :: rest) : rest = [] := by
  induction n using Nat.strongRecOn generalizing rest with
  | ind n ih =>
  rw [Nat.toDigits_eq_if (by decide)] at h
  split at h
  · exact (List.cons.inj h).2.symm
  · next hn =>
    cases hdigits : Nat.toDigits 10 (n / 10) with
    | nil => exact absurd hdigits Nat.toDigits_ne_nil
    | cons c front =>
      rw [hdigits, List.cons_append] at h
      obtain ⟨rfl, -⟩ := List.cons.inj h
      obtain rfl := ih (n / 10) (by omega) hdigits
      have hvalue := @Nat.ofDigitChars_ten_toDigits (n / 10)
      rw [hdigits] at hvalue
      change 0 = n / 10 at hvalue
      omega

theorem takeDigits_toDigits (n : ℕ) {r : List Char} (hr : Delimited r) :
    Token.takeDigits (Nat.toDigits 10 n ++ r) = .ok (Nat.toDigits 10 n, r) := by
  have hall := isDigit_toDigits n
  have hstop : r.takeWhile Char.isDigit = [] ∧ r.dropWhile Char.isDigit = r := by
    cases r with
    | nil => simp
    | cons c r =>
      have hc : c.isDigit = false := by
        rcases hr c rfl with rfl | rfl | rfl <;> rfl
      simp [hc]
  cases hdigits : Nat.toDigits 10 n with
  | nil => exact absurd hdigits Nat.toDigits_ne_nil
  | cons c digits =>
    rw [hdigits] at hall
    rw [List.cons_append, Token.takeDigits, if_pos (hall c List.mem_cons_self),
      ← List.cons_append, List.takeWhile_append_of_pos hall, List.dropWhile_append_of_pos hall,
      hstop.1, hstop.2, List.append_nil]

theorem takeUnsigned_toDigits (n : ℕ) {r : List Char} (hr : Delimited r) :
    Token.takeUnsigned (Nat.toDigits 10 n ++ r) = .ok (Nat.toDigits 10 n, r) := by
  have hwhole : Token.takeWhole (Nat.toDigits 10 n ++ r) = .ok (Nat.toDigits 10 n, r) := by
    rw [Token.takeWhole, takeDigits_toDigits n hr]
    split
    · next h =>
      simp only [Except.ok.injEq, Prod.mk.injEq] at h
      have hnil := eq_nil_of_leading_zero h.1
      simp at hnil
    · rfl
  have hfraction : Token.takeFraction r = .ok ([], r) := by
    unfold Token.takeFraction
    split
    · rcases hr _ rfl with h | h | h <;> simp at h
    · rfl
  have hexponent : Token.takeExponent r = .ok ([], r) := by
    unfold Token.takeExponent
    split
    · rcases hr _ rfl with h | h | h <;> simp at h
    · rcases hr _ rfl with h | h | h <;> simp at h
    · rfl
  simp [Token.takeUnsigned, Token.Cut.andThen, hwhole, hfraction, hexponent, Token.Cut.prepend,
    Except.map]

theorem toDigits_ne_sign (n : ℕ) (s : List Char) : Nat.toDigits 10 n ≠ '-' :: s := by
  intro h
  have hsign := isDigit_toDigits n '-' (h ▸ List.mem_cons_self)
  simp at hsign

theorem isNumber_text (n : ℤ) : IsNumber (integer n).text.toList := by
  cases n with
  | ofNat n =>
    rw [Int.ofNat_eq_natCast, toList_text_ofNat]
    constructor
    · cases hdigits : Nat.toDigits 10 n with
      | nil => exact absurd hdigits Nat.toDigits_ne_nil
      | cons c s => exact ⟨c, s, rfl, .inr (isDigit_toDigits n c (hdigits ▸ List.mem_cons_self))⟩
    · intro r hr
      have htake := takeUnsigned_toDigits n hr
      unfold Token.takeNumber
      split
      · next s hs =>
        cases hdigits : Nat.toDigits 10 n with
        | nil => exact absurd hdigits Nat.toDigits_ne_nil
        | cons c digits =>
          rw [hdigits] at hs
          obtain ⟨rfl, -⟩ := List.cons.inj hs
          exact absurd hdigits (toDigits_ne_sign n digits)
      · exact htake
  | negSucc n =>
    rw [toList_text_negSucc]
    refine ⟨⟨_, _, rfl, .inl rfl⟩, fun r hr => ?_⟩
    rw [List.cons_append, Token.takeNumber, takeUnsigned_toDigits (n + 1) hr]
    rfl

theorem le_ofDigitChars (s : List Char) (m : ℕ) : m ≤ Nat.ofDigitChars 10 s m := by
  induction s generalizing m with
  | nil => exact Nat.le_refl m
  | cons c s ih =>
    rw [Nat.ofDigitChars_cons]
    have := ih (10 * m + (c.toNat - '0'.toNat))
    omega

theorem accumulate_of_lt {m : ℕ} {s : List Char} (h : Nat.ofDigitChars 10 s m < Nat.pow 2 64) :
    accumulate m s = (Nat.ofDigitChars 10 s m, []) := by
  induction s generalizing m with
  | nil => rfl
  | cons c s ih =>
    have hstep : m * 10 + digitValue c = 10 * m + (c.toNat - '0'.toNat) := by
      rw [Nat.mul_comm]
      rfl
    rw [Nat.ofDigitChars_cons] at h ⊢
    have hle := le_ofDigitChars s (10 * m + (c.toNat - '0'.toNat))
    rw [accumulate, hstep, if_pos (Nat.lt_of_le_of_lt hle h), ih h]

theorem accumulate_lt {m : ℕ} (s : List Char) (h : m < Nat.pow 2 64) :
    (accumulate m s).1 < Nat.pow 2 64 := by
  fun_induction accumulate m s with
  | case1 => exact h
  | case2 m c s hlt ih => exact ih hlt
  | case3 m c s hge => exact h

theorem ofUnsigned_toDigits (negative : Bool) {n : ℕ} (h : n < Nat.pow 2 64) :
    ofUnsigned negative (Nat.toDigits 10 n) =
      if !negative then some (.integer n)
      else if n = 0 ∨ Nat.pow 2 63 < n then scaled negative n 0
      else some (.integer (-n)) := by
  have hall := isDigit_toDigits n
  have hvalue := @Nat.ofDigitChars_ten_toDigits n
  have hwhole : accumulate 0 (Nat.toDigits 10 n) = (n, []) := by
    rw [accumulate_of_lt (hvalue.symm ▸ h), hvalue]
  have htake : (Nat.toDigits 10 n).takeWhile Char.isDigit = Nat.toDigits 10 n :=
    List.takeWhile_eq_self_iff.2 hall
  have hdrop : (Nat.toDigits 10 n).dropWhile Char.isDigit = [] :=
    List.dropWhile_eq_nil_iff.2 hall
  simp only [ofUnsigned, htake, hdrop, hwhole]
  simp

theorem scaled_ne_integer {negative : Bool} {significand : ℕ} {exponent n : ℤ} :
    ¬ scaled negative significand exponent = some (.integer n) := by
  intro h
  obtain ⟨x, -, hx⟩ := Option.map_eq_some_iff.1 h
  simp at hx

/-- Integers are read without a loss only between `-2 ^ 63` and `2 ^ 64`. -/
theorem ofUnsigned_eq_integer {negative : Bool} {s : List Char} {n : ℤ}
    (h : ofUnsigned negative s = some (.integer n)) : ∃ whole : ℕ, whole < Nat.pow 2 64 ∧
      if negative then whole ≠ 0 ∧ whole ≤ Nat.pow 2 63 ∧ n = -whole else n = whole := by
  have hlt := accumulate_lt (s.takeWhile Char.isDigit) (m := 0) (by decide)
  simp only [ofUnsigned] at h
  split at h
  · split at h
    · exact absurd h scaled_ne_integer
    · refine ⟨_, hlt, ?_⟩
      cases negative with
      | false => simpa [eq_comm] using h
      | true =>
        simp only [Bool.not_true, Bool.false_eq_true, if_false] at h
        split at h
        · exact absurd h scaled_ne_integer
        · next hrange =>
          simp only [not_or, Nat.not_lt] at hrange
          simp only [Option.some.injEq, integer.injEq] at h
          exact ⟨hrange.1, hrange.2, h.symm⟩
  · exact absurd h scaled_ne_integer
  · exact absurd h scaled_ne_integer

theorem read_text {lexeme : List Char} {n : ℤ} (h : read lexeme = .ok (.integer n)) :
    read (integer n).text.toList = .ok (.integer n) := by
  obtain ⟨negative, s, hs⟩ : ∃ negative s, ofUnsigned negative s = some (.integer n) := by
    unfold read at h
    split at h
    · next hlexeme =>
      obtain rfl := Except.ok.inj h
      unfold ofLexeme at hlexeme
      split at hlexeme
      · exact ⟨true, _, hlexeme⟩
      · exact ⟨false, _, hlexeme⟩
    · simp at h
  obtain ⟨whole, hlt, hn⟩ := ofUnsigned_eq_integer hs
  cases negative with
  | false =>
    obtain rfl : n = whole := hn
    have hread := ofUnsigned_toDigits false hlt
    rw [toList_text_ofNat, read, ofLexeme.eq_2 _ (toDigits_ne_sign whole), hread]
    rfl
  | true =>
    obtain ⟨hne, hle, rfl⟩ := hn
    obtain ⟨m, rfl⟩ := Nat.exists_eq_succ_of_ne_zero hne
    have hread := ofUnsigned_toDigits true hlt
    have hrange : ¬ (m.succ = 0 ∨ Nat.pow 2 63 < m.succ) := by omega
    rw [if_neg (by simp), if_neg hrange] at hread
    have htext : (integer (-(m.succ : ℤ))).text.toList = '-' :: Nat.toDigits 10 m.succ :=
      toList_text_negSucc m
    rw [htext, read, ofLexeme, hread]

end Number

namespace Value

/-- No number in the value has a fraction or an exponent or is too great for an integer. -/
inductive Integral : Value → Prop
  | null : Integral .null
  | bool (b : Bool) : Integral (.bool b)
  | integer (n : ℤ) : Integral (.number (.integer n))
  | string (s : String) : Integral (.string s)
  | array {items : List Value} : (∀ v ∈ items, Integral v) → Integral (.array items)
  | object {members : List (String × Value)} :
      (∀ e ∈ members, Integral e.2) → Integral (.object members)

mutual

theorem toJson_legible (v : Value) (h : v.Integral) : v.toJson.Legible := by
  cases v with
  | null | bool b => simp [toJson, Json.Legible]
  | number n =>
    cases h with
    | integer n =>
      rw [toJson, Number.toJson, Json.Legible]
      exact Number.isNumber_text n
  | string s =>
    rw [toJson, Json.ofString, Json.Legible]
    exact ⟨s.toList, rfl⟩
  | array items =>
    cases h with
    | array hitems =>
      rw [toJson, Json.Legible]
      exact itemsToJson_legible items hitems
  | object members =>
    cases h with
    | object hmembers =>
      rw [toJson, Json.Legible]
      exact membersToJson_legible members hmembers

theorem itemsToJson_legible (items : List Value) (h : ∀ v ∈ items, v.Integral) :
    Json.LegibleItems (itemsToJson items) := by
  match items with
  | [] => trivial
  | v :: items =>
    obtain ⟨hv, hitems⟩ := List.forall_mem_cons.1 h
    exact ⟨toJson_legible v hv, itemsToJson_legible items hitems⟩

theorem membersToJson_legible (members : List (String × Value))
    (h : ∀ e ∈ members, e.2.Integral) : Json.LegibleMembers (membersToJson members) := by
  match members with
  | [] => trivial
  | (name, v) :: members =>
    obtain ⟨hv, hmembers⟩ := List.forall_mem_cons.1 h
    exact ⟨⟨name.toList, rfl⟩, toJson_legible v hv, membersToJson_legible members hmembers⟩

end

/-- A value that reads back from its own tree unless it has a number that is no integer. -/
def Rereads (levels : ℕ) (v : Value) : Prop :=
  v.Integral → ofPartial levels (toPartial v.toJson) = .ok v

theorem ofItems_itemsToJson {levels : ℕ} {items : List Value}
    (h : ∀ v ∈ items, ofPartial levels (toPartial v.toJson) = .ok v) :
    ofItems levels (itemsToPartial (itemsToJson items)) = .ok items := by
  induction items with
  | nil => rfl
  | cons v items ih =>
    obtain ⟨hv, hitems⟩ := List.forall_mem_cons.1 h
    rw [itemsToJson, itemsToPartial, ofItems, hv, ih hitems]
    rfl

theorem ofMembers_membersToJson {levels : ℕ} {placed members : List (String × Value)}
    (hincreasing : (placed ++ members).Pairwise fun x y => compare x.1 y.1 = .lt)
    (h : ∀ e ∈ members, ofPartial levels (toPartial e.2.toJson) = .ok e.2) :
    ofMembers levels placed (membersToPartial (membersToJson members)) =
      .ok (placed ++ members) := by
  induction members generalizing placed with
  | nil => simp [membersToJson, membersToPartial, ofMembers]
  | cons e members ih =>
    obtain ⟨name, v⟩ := e
    obtain ⟨hv, hmembers⟩ := List.forall_mem_cons.1 h
    have hlast : ∀ x ∈ placed, compare x.1 name = .lt := fun x hx =>
      (List.pairwise_append.1 hincreasing).2.2 x hx (name, v) List.mem_cons_self
    rw [List.append_cons] at hincreasing
    rw [membersToJson, membersToPartial, ofMembers, Json.read_escape, hv]
    have hplace := SortedMap.place_of_forall_lt (b := v) hlast
    change ofMembers levels (SortedMap.place (String.ofList name.toList) v placed) _ = _
    rw [String.ofList_toList, hplace, ih hincreasing hmembers, List.append_assoc]
    rfl

mutual

theorem rereads_of_ofPartial (levels : ℕ) (j : Partial) {v : Value}
    (h : ofPartial levels j = .ok v) : v.Rereads levels := by
  intro hv
  cases j with
  | null =>
    obtain rfl := Except.ok.inj h
    rfl
  | bool b =>
    obtain rfl := Except.ok.inj h
    rfl
  | number lexeme =>
    obtain ⟨n, hn, rfl⟩ := map_eq_ok_iff.1 h
    cases hv with
    | integer n =>
      rw [toJson, Number.toJson, toPartial, ofPartial, Number.read_text hn]
      rfl
  | string lexeme =>
    obtain ⟨s, -, rfl⟩ := map_eq_ok_iff.1 h
    simp [toJson, Json.ofString, toPartial, ofPartial, Json.read_escape]
  | array items ending =>
    rw [ofPartial] at h
    split at h
    · simp at h
    · next hlevels =>
      obtain ⟨vs, hvs, h⟩ := bind_eq_ok_iff.1 h
      obtain ⟨_, -, h⟩ := bind_eq_ok_iff.1 h
      obtain rfl := Except.ok.inj h
      cases hv with
      | array hitems =>
        have hagain := ofItems_itemsToJson fun v hv =>
          rereads_of_ofItems (levels - 1) items hvs v hv (hitems v hv)
        rw [toJson, toPartial, ofPartial, if_neg hlevels, hagain]
        rfl
  | object members ending =>
    rw [ofPartial] at h
    split at h
    · simp at h
    · next hlevels =>
      obtain ⟨placed, hplaced, h⟩ := bind_eq_ok_iff.1 h
      obtain ⟨_, -, h⟩ := bind_eq_ok_iff.1 h
      obtain rfl := Except.ok.inj h
      cases hv with
      | object hmembers =>
        obtain ⟨hincreasing, hvalues⟩ := rereads_of_ofMembers (levels - 1) members .nil
          (by simp) hplaced
        have hagain := ofMembers_membersToJson
          (show ([] ++ placed).Pairwise _ from hincreasing) fun e he =>
            hvalues e he (hmembers e he)
        rw [toJson, toPartial, ofPartial, if_neg hlevels, hagain]
        rfl
  | openNumber | openString _ | missing _ => simp [ofPartial] at h

theorem rereads_of_ofItems (levels : ℕ) (items : List Partial) {vs : List Value}
    (h : ofItems levels items = .ok vs) : ∀ v ∈ vs, v.Rereads levels := by
  match items with
  | [] =>
    obtain rfl := Except.ok.inj h
    simp
  | item :: items =>
    obtain ⟨v, hv, h⟩ := bind_eq_ok_iff.1 h
    obtain ⟨vs, hvs, h⟩ := bind_eq_ok_iff.1 h
    obtain rfl := Except.ok.inj h
    exact List.forall_mem_cons.2 ⟨rereads_of_ofPartial levels item hv,
      rereads_of_ofItems levels items hvs⟩

theorem rereads_of_ofMembers (levels : ℕ) (members : List (List Char × Partial))
    {placed result : List (String × Value)}
    (hincreasing : placed.Pairwise fun x y => compare x.1 y.1 = .lt)
    (hplaced : ∀ e ∈ placed, e.2.Rereads levels)
    (h : ofMembers levels placed members = .ok result) :
    result.Pairwise (fun x y => compare x.1 y.1 = .lt) ∧ ∀ e ∈ result, e.2.Rereads levels := by
  match members with
  | [] =>
    obtain rfl := Except.ok.inj h
    exact ⟨hincreasing, hplaced⟩
  | (key, item) :: members =>
    obtain ⟨name, -, h⟩ := bind_eq_ok_iff.1 h
    obtain ⟨v, hv, h⟩ := bind_eq_ok_iff.1 h
    have hitem := rereads_of_ofPartial levels item hv
    refine rereads_of_ofMembers levels members (SortedMap.place_increasing hincreasing) ?_ h
    intro e he
    rcases SortedMap.fst_mem_place he with rfl | he
    · exact hitem
    · exact hplaced e he

end

end Value

end ModuleGraph
