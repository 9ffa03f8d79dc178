import Mathlib.Data.List.TakeDrop
import Paraleon.Tuning.Ecn

/-!
# Keys of single ports

`ParsePortConfigKey` looks for `switch.<id>.port.<port>.<field>`. The two numbers are read by
`stoul`, which takes blanks and a sign in front and anything behind, and has 64 bits, of which
32 are kept.

* `parsePortConfigKey_eq_some_iff`: the keys that it accepts.
* `parsePortConfigKey_exact_iff`: it accepts exactly the keys of its grammar, with numbers of 32
  bits, unless a key is `LooseKey`.
-/

namespace Paraleon.Tuning

open Numerals

/-! ## The grammar -/

/-- A key whose numbers are the texts `a` and `b`. -/
def portKey (a b : Text) (field : Field) : Text :=
  "switch.".toList ++ (a ++ (".port.".toList ++ (b ++ '.' :: field.text)))

/-- Decimal digits for a number of 32 bits. -/
structure Plain (s : Text) : Prop where
  nonempty : s ≠ []
  digits : ∀ d ∈ s, d.isDigit = true
  lt : number s < 2 ^ 32

/-- The key of a field of a port of a switch. -/
def Grammar (key : Text) (switchId port : UInt32) (field : Field) : Prop :=
  ∃ a b, key = portKey a b field ∧ Plain a ∧ Plain b ∧ number a = switchId.toNat ∧
    number b = port.toNat

/-- `stoul` reads a number from the text, which may have more than its digits. -/
def Numeral (s : Text) (value : Nat) : Prop :=
  ∃ blanks sign digits junk, NumeralParts s blanks sign digits junk ∧ number digits < 2 ^ 64 ∧
    value = if sign = ['-'] then (2 ^ 64 - number digits) % 2 ^ 64 else number digits

/-- A key with the right words, whose numbers are not both plain but are read all the same, the
first as the id of the switch. -/
def LooseKey (key : Text) (switchId : UInt32) : Prop :=
  ∃ a b field id port, key = portKey a b field ∧ '.' ∉ a ∧ '.' ∉ b ∧
    Numeral a id ∧ id % 2 ^ 32 = switchId.toNat ∧ Numeral b port ∧ ¬(Plain a ∧ Plain b)

/-! ## What is accepted -/

variable {key a b rest : Text} {switchId port : UInt32} {field : Field}

theorem span_port (ha : '.' ∉ a) (rest : Text) :
    (a ++ (".port.".toList ++ rest)).span (· ≠ '.') = (a, ".port.".toList ++ rest) := by
  have hport : ".port.".toList = '.' :: "port.".toList := by decide
  rw [hport, List.cons_append, span_point ha]

theorem isPrefixOf?_eq_some_iff {s t u : Text} : s.isPrefixOf? t = some u ↔ t = s ++ u := by
  induction s generalizing t with
  | nil => simp [List.isPrefixOf?, eq_comm]
  | cons c s ih =>
    cases t with
    | nil => simp [List.isPrefixOf?]
    | cons d t =>
      rcases eq_or_ne c d with rfl | hcd
      · simp [List.isPrefixOf?, ih]
      · simp [List.isPrefixOf?, hcd, hcd.symm]

/-- A key has only one way to be split. -/
theorem portKey_inj {a' b' : Text} {field' : Field} (ha : '.' ∉ a) (hb : '.' ∉ b) (ha' : '.' ∉ a')
    (hb' : '.' ∉ b') (h : portKey a b field = portKey a' b' field') :
    a = a' ∧ b = b' ∧ field.text = field'.text := by
  have hfirst := congrArg (fun s => s.span (· ≠ '.')) (List.append_cancel_left h)
  rw [span_port ha, span_port ha', Prod.mk.injEq] at hfirst
  obtain ⟨rfl, hrest⟩ := hfirst
  have hsecond := congrArg (fun s => s.span (· ≠ '.')) (List.append_cancel_left hrest)
  rw [span_point hb, span_point hb', Prod.mk.injEq] at hsecond
  exact ⟨rfl, hsecond.1, (List.cons.inj hsecond.2).2⟩

/-- The keys that are accepted, and what they are taken for. -/
theorem parsePortConfigKey_eq_some_iff :
    parsePortConfigKey key switchId = some (port, field) ↔
      ∃ a b id p, key = portKey a b field ∧ '.' ∉ a ∧ '.' ∉ b ∧ stoul a = some id ∧
        UInt32.ofNat id = switchId ∧ stoul b = some p ∧ UInt32.ofNat p = port := by
  constructor
  · intro h
    obtain ⟨rest, hrest, h⟩ := Option.bind_eq_some_iff.mp h
    rw [List.span_eq_takeWhile_dropWhile] at h
    dsimp only at h
    obtain ⟨id, hid, h⟩ := Option.bind_eq_some_iff.mp h
    obtain ⟨hswitch, h⟩ := Option.ite_none_right_eq_some.mp h
    obtain ⟨rest', hrest', h⟩ := Option.bind_eq_some_iff.mp h
    rw [List.span_eq_takeWhile_dropWhile] at h
    have hnot : ∀ s : Text, '.' ∉ s.takeWhile (· ≠ '.') := fun s hmem => by
      simpa using List.mem_takeWhile_imp hmem
    have hsplit : rest = rest.takeWhile (· ≠ '.') ++ (".port.".toList ++ rest') :=
      List.takeWhile_append_dropWhile.symm.trans
        (congrArg (rest.takeWhile (· ≠ '.') ++ ·) (isPrefixOf?_eq_some_iff.mp hrest'))
    -- the second dot is there, and the field behind it
    dsimp only at h
    split at h
    · cases h
    · next c fieldText hdrop =>
      obtain ⟨p, hp, h⟩ := Option.bind_eq_some_iff.mp h
      obtain ⟨field', hfield, heq⟩ := Option.map_eq_some_iff.mp h
      obtain ⟨rfl, rfl⟩ := Prod.mk.inj heq
      obtain rfl : c = '.' := by
        have hhead := List.head?_dropWhile_not (· ≠ '.') rest'
        rw [hdrop] at hhead
        simpa using hhead
      have hsplit' : rest' = rest'.takeWhile (· ≠ '.') ++ '.' :: field'.text := by
        rw [← Field.ofText_eq_some_iff.mp hfield, ← hdrop, List.takeWhile_append_dropWhile]
      have hkey : key = portKey (rest.takeWhile (· ≠ '.')) (rest'.takeWhile (· ≠ '.')) field' :=
        calc
          key = "switch.".toList ++ rest := isPrefixOf?_eq_some_iff.mp hrest
          _ = "switch.".toList ++ (rest.takeWhile (· ≠ '.') ++ (".port.".toList ++ rest')) :=
            congrArg ("switch.".toList ++ ·) hsplit
          _ = _ := congrArg (fun s => "switch.".toList ++ (rest.takeWhile (· ≠ '.') ++
            (".port.".toList ++ s))) hsplit'
      exact ⟨_, _, id, p, hkey, hnot rest, hnot rest', hid, hswitch, hp, rfl⟩
  · rintro ⟨a, b, id, p, rfl, ha, hb, hid, rfl, hp, rfl⟩
    have hkey : portKey a b field =
        "switch.".toList ++ (a ++ (".port.".toList ++ (b ++ '.' :: field.text))) := rfl
    rw [parsePortConfigKey, isPrefixOf?_eq_some_iff.mpr hkey, Option.bind_some, span_port ha]
    dsimp only
    rw [hid, Option.bind_some, if_pos rfl, isPrefixOf?_eq_some_iff.mpr rfl, Option.bind_some,
      span_point hb]
    dsimp only
    rw [hp, Option.bind_some, Field.ofText_eq_some_iff.mpr rfl]
    rfl

theorem Plain.not_mem_dot {s : Text} (h : Plain s) : '.' ∉ s := fun hmem => by
  have hdot := h.digits '.' hmem
  simp [Char.isDigit] at hdot

theorem Plain.stoul {s : Text} (h : Plain s) : stoul s = some (number s) :=
  stoul_number h.nonempty h.digits (h.lt.trans (by decide))

theorem ofNat_eq_iff {n : Nat} {x : UInt32} : UInt32.ofNat n = x ↔ n % 2 ^ 32 = x.toNat := by
  rw [← UInt32.toNat_inj, UInt32.toNat_ofNat']

/-- The grammar is accepted. -/
theorem parsePortConfigKey_of_grammar (h : Grammar key switchId port field) :
    parsePortConfigKey key switchId = some (port, field) := by
  obtain ⟨a, b, rfl, ha, hb, hid, hport⟩ := h
  refine parsePortConfigKey_eq_some_iff.mpr
    ⟨a, b, _, _, rfl, ha.not_mem_dot, hb.not_mem_dot, ha.stoul, ?_, hb.stoul, ?_⟩
  · rw [ofNat_eq_iff, Nat.mod_eq_of_lt ha.lt, hid]
  · rw [ofNat_eq_iff, Nat.mod_eq_of_lt hb.lt, hport]

/-- A key is accepted exactly if it is one of the grammar, unless it has the words of one and
numbers that are not plain. -/
theorem parsePortConfigKey_exact_iff (key : Text) (switchId : UInt32) :
    (∀ port field, parsePortConfigKey key switchId = some (port, field) ↔
      Grammar key switchId port field) ↔ ¬LooseKey key switchId := by
  constructor
  · rintro h ⟨a, b, field, id, port, rfl, ha, hb, hid, hswitch, hport, hplain⟩
    have hparse : parsePortConfigKey (portKey a b field) switchId = some (.ofNat port, field) :=
      parsePortConfigKey_eq_some_iff.mpr ⟨a, b, id, port, rfl, ha, hb,
        stoul_eq_some_iff.mpr hid, ofNat_eq_iff.mpr hswitch, stoul_eq_some_iff.mpr hport, rfl⟩
    obtain ⟨a', b', hkey, ha', hb', -, -⟩ := (h _ _).mp hparse
    obtain ⟨rfl, rfl, -⟩ := portKey_inj ha hb ha'.not_mem_dot hb'.not_mem_dot hkey
    exact hplain ⟨ha', hb'⟩
  · intro h port field
    refine ⟨fun hparse => ?_, parsePortConfigKey_of_grammar⟩
    obtain ⟨a, b, id, p, rfl, ha, hb, hid, hswitch, hp, rfl⟩ :=
      parsePortConfigKey_eq_some_iff.mp hparse
    have hplain : Plain a ∧ Plain b := by
      by_contra hloose
      exact h ⟨a, b, field, id, p, rfl, ha, hb, stoul_eq_some_iff.mp hid, ofNat_eq_iff.mp hswitch,
        stoul_eq_some_iff.mp hp, hloose⟩
    have hid' : number a = id := Option.some.inj (hplain.1.stoul.symm.trans hid)
    have hp' : number b = p := Option.some.inj (hplain.2.stoul.symm.trans hp)
    refine ⟨a, b, rfl, hplain.1, hplain.2, ?_, ?_⟩
    · rw [← hswitch, UInt32.toNat_ofNat', ← hid', Nat.mod_eq_of_lt hplain.1.lt]
    · rw [UInt32.toNat_ofNat', ← hp', Nat.mod_eq_of_lt hplain.2.lt]

/-- A key for switch 4294967297 is taken for one of switch 1. -/
theorem wide_id_attributed :
    parsePortConfigKey "switch.4294967297.port.3.kmin".toList 1 = some (3, .kmin) ∧
      ¬Grammar "switch.4294967297.port.3.kmin".toList 1 3 .kmin := by
  refine ⟨by decide, ?_⟩
  rintro ⟨a, b, hkey, ha, hb, hid, -⟩
  have hkey' : portKey "4294967297".toList "3".toList .kmin = portKey a b .kmin := hkey
  obtain ⟨rfl, -, -⟩ := portKey_inj (by decide) (by decide) ha.not_mem_dot hb.not_mem_dot hkey'
  exact absurd hid (by decide)

end Paraleon.Tuning
