import Mathlib.Data.Int.Order.Basic
import Mathlib.Data.Rat.Defs
import Mathlib.Logic.Function.Basic
import Paraleon.Library.Numerals

/-!
# Reconfiguring the ECN thresholds of a switch

`ChangeECNthreshold` applies a parameter map to the ports of a switch. A key can name a
field of one port of one switch, or of all ports.

* `read_named`: what the loop over the map has collected, in terms of the entries alone.
* `changeEcnThreshold_iff`: exactly when the fields that the map does not name stay as they
  are. The global update starts from 400, 1600 and 0.2 instead of the values in force, and
  is made also when the map names nothing at all.
-/

namespace Paraleon.Tuning

open Function Numerals

inductive Field where
  | kmin
  | kmax
  | pmax
deriving DecidableEq, Repr

def Field.text : Field → Text
  | .kmin => "kmin".toList
  | .kmax => "kmax".toList
  | .pmax => "pmax".toList

def Field.ofText (s : Text) : Option Field :=
  if s = "kmin".toList then some .kmin
  else if s = "kmax".toList then some .kmax
  else if s = "pmax".toList then some .pmax
  else none

theorem Field.ofText_eq_some_iff {s : Text} {field : Field} :
    Field.ofText s = some field ↔ s = field.text := by
  constructor
  · intro h
    unfold Field.ofText at h
    split_ifs at h <;> cases h <;> assumption
  · rintro rfl
    cases field <;> rfl

/-- `ParsePortConfigKey`: the port and the field of a key of this switch. -/
def parsePortConfigKey (key : Text) (switchId : UInt32) : Option (UInt32 × Field) :=
  ("switch.".toList.isPrefixOf? key).bind fun rest =>
    let (parsedSwitchId, rest) := rest.span (· ≠ '.')
    (stoul parsedSwitchId).bind fun id =>
      if UInt32.ofNat id = switchId then
        (".port.".toList.isPrefixOf? rest).bind fun rest =>
          let (port, rest) := rest.span (· ≠ '.')
          match rest with
          | [] => none
          | _ :: field =>
            (stoul port).bind fun port =>
              (Field.ofText field).map fun field => (UInt32.ofNat port, field)
      else none

/-! ## The thresholds of a port -/

/-- What `double` and `stof` are used for here. No law of an order is needed, so that a NaN
may be among the values. -/
structure Floats (α : Type) where
  lt : α → α → Bool
  zero : α
  one : α
  /-- The literal `0.2`. -/
  fifth : α
  stof : Text → Option α

variable {α : Type} (f : Floats α)

/-- `std::max(0.0, std::min(1.0, value))` -/
def Floats.clampProbability (value : α) : α :=
  let atMost := if f.lt value f.one then value else f.one
  if f.lt f.zero atMost then atMost else f.zero

/-- `kmin[port]`, `kmax[port]` and `pmax[port]` of `SwitchMmu`. -/
@[ext] structure PortEcn (α : Type) where
  kmin : UInt32
  kmax : UInt32
  pmax : α

@[ext] structure PortEcnConfig (α : Type) where
  kmin : Int
  kmax : Int
  pmax : α

/-- `GetPortKmin`, `GetPortKmax` and `GetPortPmax` -/
def PortEcn.getPort (e : PortEcn α) : PortEcnConfig α :=
  { kmin := (e.kmin / 1000).toNat, kmax := (e.kmax / 1000).toNat, pmax := e.pmax }

/-- `SwitchMmu::ConfigEcn` -/
def configEcn (kmin kmax : UInt32) (pmax : α) : PortEcn α :=
  { kmin := kmin * 1000, kmax := kmax * 1000, pmax }

/-- The call of `ConfigEcn` for a port. -/
def PortEcnConfig.apply (c : PortEcnConfig α) : PortEcn α :=
  configEcn (.ofInt c.kmin) (.ofInt (max c.kmin c.kmax)) (f.clampProbability c.pmax)

def PortEcnConfig.set (c : PortEcnConfig α) (value : Text) : Field → Option (PortEcnConfig α)
  | .kmin => (stoi value).map fun v => { c with kmin := v }
  | .kmax => (stoi value).map fun v => { c with kmax := v }
  | .pmax => (f.stof value).map fun v => { c with pmax := v }

/-! ## `ChangeECNthreshold` -/

/-- A parameter map, in its order of iteration. -/
abbrev ParameterMap := List (Text × Text)

/-- The switch: its id, the number of its devices, and the thresholds of its ports. -/
structure EcnSwitch (α : Type) where
  id : UInt32
  nDevices : Nat
  ports : Nat → PortEcn α

/-- The variables of the loop. -/
structure EcnUpdate (α : Type) where
  global : PortEcnConfig α
  hasGlobalUpdate : Bool
  hasPortUpdate : Bool
  portConfigs : Nat → Option (PortEcnConfig α)

namespace EcnUpdate

def defaults : PortEcnConfig α := { kmin := 400, kmax := 1600, pmax := f.fifth }

def init : EcnUpdate α :=
  { global := defaults f, hasGlobalUpdate := false, hasPortUpdate := false,
    portConfigs := fun _ => none }

variable (sw : EcnSwitch α) (u : EcnUpdate α) (entry : Text × Text)

/-- The body of the loop, for a key of a port. -/
def setPort (port : UInt32) (field : Field) : Option (EcnUpdate α) :=
  if sw.nDevices ≤ port.toNat then some u
  else
    let config := (u.portConfigs port.toNat).getD (sw.ports port.toNat).getPort
    (config.set f entry.2 field).map fun config =>
      { u with portConfigs := update u.portConfigs port.toNat (some config), hasPortUpdate := true }

/-- The body of the loop, for any other key. -/
def setGlobal : Option (EcnUpdate α) :=
  match Field.ofText entry.1 with
  | some field =>
    (u.global.set f entry.2 field).map fun global => { u with global, hasGlobalUpdate := true }
  | none => some u

def read : Option (EcnUpdate α) :=
  match parsePortConfigKey entry.1 sw.id with
  | some (port, field) => u.setPort f sw entry port field
  | none => u.setGlobal f entry

/-- What follows the loop. Each port is configured once, so that the order of the ports does
not matter. -/
def apply (i : Nat) : PortEcn α :=
  if sw.nDevices ≤ i then sw.ports i
  else if u.hasPortUpdate then
    match u.portConfigs i with
    | some config => config.apply f
    | none => if u.hasGlobalUpdate then u.global.apply f else sw.ports i
  else u.global.apply f

end EcnUpdate

/-- `SwitchNode::ChangeECNthreshold`; `none` is the exception of a value that is no number. -/
def changeEcnThreshold (sw : EcnSwitch α) (parameterMap : ParameterMap) :
    Option (EcnSwitch α) :=
  (parameterMap.foldlM (fun (u : EcnUpdate α) e => u.read f sw e) (EcnUpdate.init f)).map fun u =>
    { sw with ports := u.apply f sw }

/-! ## What a map names -/

/-- Values for some of the fields of a port. -/
structure Named (α : Type) where
  kmin : Option Int
  kmax : Option Int
  pmax : Option α

namespace Named

def any (n : Named α) : Bool := n.kmin.isSome || n.kmax.isSome || n.pmax.isSome

/-- The named values, and those of `base` for the other fields. -/
def fillFrom (n : Named α) (base : PortEcnConfig α) : PortEcnConfig α :=
  { kmin := n.kmin.getD base.kmin, kmax := n.kmax.getD base.kmax, pmax := n.pmax.getD base.pmax }

theorem fillFrom_of_not_any {n : Named α} (h : n.any = false) (base : PortEcnConfig α) :
    n.fillFrom base = base := by
  simp only [any, Bool.or_eq_false_iff, Option.isSome_eq_false_iff, Option.isNone_iff_eq_none] at h
  simp [fillFrom, h.1.1, h.1.2, h.2]

end Named

section named

variable (which : Text → Option Field)

/-- The last value of each field, where `which` says what field a key is for. -/
def lastValue {β : Type} (value : Text → Option β) (field : Field) (m : ParameterMap) : Option β :=
  (m.filterMap fun e => if which e.1 = some field then value e.2 else none).getLast?

def named (m : ParameterMap) : Named α :=
  { kmin := lastValue which stoi .kmin m
    kmax := lastValue which stoi .kmax m
    pmax := lastValue which f.stof .pmax m }

variable {which} {m : ParameterMap} {e : Text × Text}

theorem lastValue_snoc_other {β : Type} {value : Text → Option β} {field : Field}
    (h : which e.1 ≠ some field) :
    lastValue which value field (m ++ [e]) = lastValue which value field m := by
  simp [lastValue, h]

theorem lastValue_snoc {β : Type} {value : Text → Option β} {field : Field} {v : β}
    (h : which e.1 = some field) (hv : value e.2 = some v) :
    lastValue which value field (m ++ [e]) = some v := by
  simp [lastValue, h, hv]

theorem named_snoc_other (h : which e.1 = none) : named f which (m ++ [e]) = named f which m := by
  simp only [named]
  rw [lastValue_snoc_other (by simp [h]), lastValue_snoc_other (by simp [h]),
    lastValue_snoc_other (by simp [h])]

/-- A further entry sets its field. -/
theorem named_snoc {f} {field : Field} (h : which e.1 = some field)
    {base c : PortEcnConfig α} (hset : ((named f which m).fillFrom base).set f e.2 field = some c) :
    (named f which (m ++ [e])).fillFrom base = c ∧ (named f which (m ++ [e])).any = true := by
  cases field with
  | kmin =>
    obtain ⟨v, hv, rfl⟩ := Option.map_eq_some_iff.mp hset
    simp only [named]
    rw [lastValue_snoc h hv, lastValue_snoc_other (by simp [h]), lastValue_snoc_other (by simp [h])]
    exact ⟨rfl, rfl⟩
  | kmax =>
    obtain ⟨v, hv, rfl⟩ := Option.map_eq_some_iff.mp hset
    simp only [named]
    rw [lastValue_snoc_other (by simp [h]), lastValue_snoc h hv, lastValue_snoc_other (by simp [h])]
    exact ⟨rfl, by simp [Named.any]⟩
  | pmax =>
    obtain ⟨v, hv, rfl⟩ := Option.map_eq_some_iff.mp hset
    simp only [named]
    rw [lastValue_snoc_other (by simp [h]), lastValue_snoc_other (by simp [h]), lastValue_snoc h hv]
    exact ⟨rfl, by simp [Named.any]⟩

end named

/-- The field that a key names for port `i` of the switch. -/
def portField (sw : EcnSwitch α) (i : Nat) (key : Text) : Option Field :=
  (parsePortConfigKey key sw.id).bind fun (port, field) =>
    if port.toNat = i then some field else none

def portNamed (sw : EcnSwitch α) (m : ParameterMap) (i : Nat) : Named α :=
  named f (portField sw i) m

def globalNamed (m : ParameterMap) : Named α := named f Field.ofText m

theorem parsePortConfigKey_of_ofText {key : Text} {field : Field}
    (h : Field.ofText key = some field) (switchId : UInt32) :
    parsePortConfigKey key switchId = none := by
  have hprefix : "switch.".toList.isPrefixOf? key = none := by
    unfold Field.ofText at h
    split_ifs at h <;> subst key <;> decide
  rw [parsePortConfigKey, hprefix, Option.bind_none]

/-! ## The loop -/

namespace EcnUpdate

variable {f} {sw : EcnSwitch α} {m : ParameterMap} {u u' : EcnUpdate α} {e : Text × Text}

/-- What the loop knows after the entries `m`. -/
structure Reads (f : Floats α) (sw : EcnSwitch α) (m : ParameterMap) (u : EcnUpdate α) : Prop where
  global : u.global = (globalNamed f m).fillFrom (defaults f)
  hasGlobalUpdate : u.hasGlobalUpdate = (globalNamed f m).any
  portConfigs : ∀ i < sw.nDevices, u.portConfigs i =
    if (portNamed f sw m i).any then some ((portNamed f sw m i).fillFrom (sw.ports i).getPort)
    else none
  hasPortUpdate : u.hasPortUpdate = true ↔ ∃ i < sw.nDevices, (portNamed f sw m i).any = true

theorem reads_init : Reads f sw [] (init f) where
  global := rfl
  hasGlobalUpdate := rfl
  portConfigs _ _ := rfl
  hasPortUpdate := by simp [init, portNamed, named, lastValue, Named.any]

theorem Reads.setPort (h : Reads f sw m u) {port : UInt32} {field : Field}
    (hkey : parsePortConfigKey e.1 sw.id = some (port, field))
    (hset : u.setPort f sw e port field = some u') : Reads f sw (m ++ [e]) u' := by
  have hglobal : globalNamed f (m ++ [e]) = globalNamed f m := by
    refine named_snoc_other f ?_
    by_contra hne
    obtain ⟨fld, hfld⟩ := Option.ne_none_iff_exists'.mp hne
    rw [parsePortConfigKey_of_ofText hfld] at hkey
    cases hkey
  -- the entry names this port only
  have hother : ∀ i ≠ port.toNat, portNamed f sw (m ++ [e]) i = portNamed f sw m i := by
    intro i hi
    exact named_snoc_other f (by simp [portField, hkey, Ne.symm hi])
  have hthis : portField sw port.toNat e.1 = some field := by simp [portField, hkey]
  unfold EcnUpdate.setPort at hset
  split at hset
  · next hle =>
    cases hset
    -- the switch does not have the port: the entry is skipped
    have hlt : ∀ i < sw.nDevices, i ≠ port.toNat := fun i hi => by omega
    refine
      { global := hglobal ▸ h.global
        hasGlobalUpdate := hglobal ▸ h.hasGlobalUpdate
        portConfigs := fun i hi => by rw [hother i (hlt i hi), h.portConfigs i hi]
        hasPortUpdate := h.hasPortUpdate.trans ?_ }
    refine exists_congr fun i => and_congr_right fun hi => ?_
    rw [hother i (hlt i hi)]
  · next hlt =>
    obtain ⟨config, hconfig, rfl⟩ := Option.map_eq_some_iff.mp hset
    -- the first entry of a port starts from what the port has
    have hbase : (u.portConfigs port.toNat).getD (sw.ports port.toNat).getPort =
        (portNamed f sw m port.toNat).fillFrom (sw.ports port.toNat).getPort := by
      rw [h.portConfigs _ (Nat.lt_of_not_le hlt)]
      cases hany : (portNamed f sw m port.toNat).any with
      | true => rfl
      | false => exact (Named.fillFrom_of_not_any hany _).symm
    rw [hbase] at hconfig
    obtain ⟨hover, hany⟩ := named_snoc hthis hconfig
    refine
      { global := hglobal ▸ h.global
        hasGlobalUpdate := hglobal ▸ h.hasGlobalUpdate
        portConfigs := fun i hi => ?_
        hasPortUpdate := ⟨fun _ => ⟨_, Nat.lt_of_not_le hlt, hany⟩, fun _ => rfl⟩ }
    dsimp only
    rcases eq_or_ne i port.toNat with rfl | hi'
    · rw [update_self, portNamed, hany, hover]
      rfl
    · rw [update_of_ne hi', h.portConfigs i hi, hother i hi']

theorem Reads.setGlobal (h : Reads f sw m u) (hkey : parsePortConfigKey e.1 sw.id = none)
    (hset : u.setGlobal f e = some u') : Reads f sw (m ++ [e]) u' := by
  have hport : ∀ i, portNamed f sw (m ++ [e]) i = portNamed f sw m i := fun i =>
    named_snoc_other f (by simp [portField, hkey])
  unfold EcnUpdate.setGlobal at hset
  split at hset
  · next field hfield =>
    obtain ⟨global, hglobal, rfl⟩ := Option.map_eq_some_iff.mp hset
    rw [h.global] at hglobal
    obtain ⟨hover, hany⟩ := named_snoc hfield hglobal
    exact
      { global := hover.symm
        hasGlobalUpdate := hany.symm
        portConfigs := fun i hi => by rw [hport, h.portConfigs i hi]
        hasPortUpdate := by simpa only [hport] using h.hasPortUpdate }
  · next hfield =>
    cases hset
    have hglobal : globalNamed f (m ++ [e]) = globalNamed f m := named_snoc_other f hfield
    exact
      { global := hglobal ▸ h.global
        hasGlobalUpdate := hglobal ▸ h.hasGlobalUpdate
        portConfigs := fun i hi => by rw [hport, h.portConfigs i hi]
        hasPortUpdate := by simpa only [hport] using h.hasPortUpdate }

theorem Reads.foldlM {rest : ParameterMap} (h : Reads f sw m u)
    (hrest : rest.foldlM (fun (u : EcnUpdate α) e => u.read f sw e) u = some u') :
    Reads f sw (m ++ rest) u' := by
  induction rest generalizing m u with
  | nil =>
    cases hrest
    rwa [List.append_nil]
  | cons e rest ih =>
    rw [List.foldlM_cons] at hrest
    obtain ⟨v, hv, hrest⟩ := Option.bind_eq_some_iff.mp hrest
    have hstep : Reads f sw (m ++ [e]) v := by
      unfold EcnUpdate.read at hv
      split at hv
      · next hkey => exact h.setPort hkey hv
      · next hkey => exact h.setGlobal hkey hv
    have happend : m ++ [e] ++ rest = m ++ e :: rest := by simp
    exact happend ▸ ih hstep hrest

end EcnUpdate

/-- After the loop, the variables hold what the entries name. -/
theorem read_named {sw : EcnSwitch α} {m : ParameterMap} {u : EcnUpdate α}
    (h : m.foldlM (fun (u : EcnUpdate α) e => u.read f sw e) (EcnUpdate.init f) = some u) :
    EcnUpdate.Reads f sw m u :=
  EcnUpdate.Reads.foldlM (m := []) EcnUpdate.reads_init h

/-! ## What should change -/

/-- `k` kilobytes, as the arrays of the MMU store them. -/
def kilobytes (k : Int) : UInt32 := .ofInt k * 1000

/-- A port after an update that touches the named fields only, but for the clamps. -/
def PortEcn.touched (e : PortEcn α) (n : Named α) : PortEcn α :=
  if n.any then
    let kmin := n.kmin.getD e.getPort.kmin
    { kmin := if n.kmin.isSome then kilobytes kmin else e.kmin
      kmax := match n.kmax with
        | some kmax => kilobytes (max kmin kmax)
        | none => if e.getPort.kmax < kmin then kilobytes kmin else e.kmax
      pmax := f.clampProbability (n.pmax.getD e.pmax) }
  else e

/-- What the map names for port `i`: the keys of the port come before the global ones. -/
def mentioned (sw : EcnSwitch α) (m : ParameterMap) (i : Nat) : Named α :=
  if (portNamed f sw m i).any then portNamed f sw m i else globalNamed f m

/-! ## When an update touches the named fields only -/

/-- The thresholds that are not named are whole kilobytes. -/
def WholeKilobytes (e : PortEcn α) (n : Named α) : Prop :=
  (n.kmin = none → 1000 ∣ e.kmin.toNat) ∧
    (n.kmax = none → 1000 ∣ e.kmax.toNat ∨ e.getPort.kmax < n.kmin.getD e.getPort.kmin)

/-- The fields that are not named have the values that a global update starts from; a
`kmax` that the clamp raises to `kmin` may have any other value below. -/
def AtDefaults (e : PortEcn α) (n : Named α) : Prop :=
  (n.kmin = none → e.kmin = 400000) ∧
    (n.kmax = none → e.kmax = 1600000 ∨
      1600 ≤ n.kmin.getD 400 ∧ (e.kmax.toNat : Int) ≤ n.kmin.getD 400 * 1000) ∧
    (n.pmax = none → f.clampProbability f.fifth = f.clampProbability e.pmax)

theorem kilobytes_toNat {k : Nat} (h : k * 1000 < 2 ^ 32) : (kilobytes k).toNat = k * 1000 := by
  have hk : ((k : Int) % 2 ^ 32).toNat = k := by omega
  rw [kilobytes, UInt32.ofInt, hk, UInt32.toNat_mul, UInt32.toNat_ofNat']
  change k % 2 ^ 32 * 1000 % 2 ^ 32 = k * 1000
  omega

theorem toNat_div_thousand (x : UInt32) : (x / 1000).toNat = x.toNat / 1000 := rfl

theorem kilobytes_eq_iff {k : Nat} (h : k * 1000 < 2 ^ 32) (x : UInt32) :
    kilobytes k = x ↔ x.toNat = k * 1000 := by
  rw [← UInt32.toNat_inj, kilobytes_toNat h, eq_comm]

theorem kilobytes_div (x : UInt32) : kilobytes ((x / 1000).toNat : Nat) = x ↔ 1000 ∣ x.toNat := by
  have hlt := x.toNat_lt
  rw [toNat_div_thousand, kilobytes_eq_iff (by omega)]
  omega

/-- The clamp of `kmax`, from the value in force. -/
theorem kilobytes_max_div (kmin : Int) (x : UInt32) :
    (kilobytes (max kmin (x / 1000).toNat) =
      if ((x / 1000).toNat : Int) < kmin then kilobytes kmin else x) ↔
    (1000 ∣ x.toNat ∨ ((x / 1000).toNat : Int) < kmin) := by
  by_cases hlt : ((x / 1000).toNat : Int) < kmin
  · rw [if_pos hlt, max_eq_left (le_of_lt hlt)]
    exact iff_of_true rfl (.inr hlt)
  · rw [if_neg hlt, max_eq_right (not_lt.mp hlt), kilobytes_div]
    exact ⟨.inl, fun h => h.resolve_right hlt⟩

/-- The clamp of `kmax`, from 1600. -/
theorem kilobytes_max_default (kmin : Int) (x : UInt32) :
    (kilobytes (max kmin 1600) = if ((x / 1000).toNat : Int) < kmin then kilobytes kmin else x) ↔
    (x = 1600000 ∨ 1600 ≤ kmin ∧ (x.toNat : Int) ≤ kmin * 1000) := by
  have hx := x.toNat_lt
  rw [toNat_div_thousand, ← UInt32.toNat_inj (b := 1600000)]
  change _ ↔ (x.toNat = 1600000 ∨ _)
  rcases le_or_gt 1600 kmin with hle | hgt
  · rw [max_eq_left hle]
    by_cases hlt : ((x.toNat / 1000 : Nat) : Int) < kmin
    · rw [if_pos hlt]
      exact iff_of_true rfl (.inr ⟨hle, by omega⟩)
    · rw [if_neg hlt]
      obtain ⟨k, rfl⟩ := Int.eq_ofNat_of_zero_le (by omega : 0 ≤ kmin)
      rw [kilobytes_eq_iff (by omega)]
      omega
  · rw [max_eq_right (le_of_lt hgt)]
    have h1600 : (1600 : Int) = (1600 : Nat) := rfl
    by_cases hlt : ((x.toNat / 1000 : Nat) : Int) < kmin
    · rw [if_pos hlt]
      obtain ⟨k, rfl⟩ := Int.eq_ofNat_of_zero_le (by omega : 0 ≤ kmin)
      rw [h1600, kilobytes_eq_iff (by omega), kilobytes_toNat (by omega)]
      omega
    · rw [if_neg hlt, h1600, kilobytes_eq_iff (by omega)]
      omega

/-- The update of a port with keys of its own, which starts from the values in force. -/
theorem apply_over_getPort {e : PortEcn α} {n : Named α} (hany : n.any = true) :
    (n.fillFrom e.getPort).apply f = e.touched f n ↔ WholeKilobytes e n := by
  rw [PortEcn.touched, if_pos hany, PortEcn.ext_iff, WholeKilobytes]
  refine and_congr ?_ ?_
  · change kilobytes (n.kmin.getD e.getPort.kmin) = _ ↔ _
    cases n.kmin with
    | none =>
      simp only [Option.getD_none, Option.isSome_none, Bool.false_eq_true, if_false, forall_const]
      exact kilobytes_div e.kmin
    | some kmin => simp
  · refine (and_iff_left rfl).trans ?_
    change kilobytes (max (n.kmin.getD e.getPort.kmin) (n.kmax.getD e.getPort.kmax)) = _ ↔ _
    cases n.kmax with
    | none =>
      simp only [Option.getD_none, forall_const]
      exact kilobytes_max_div _ e.kmax
    | some kmax => simp

/-- The global update, which starts from fixed values. -/
theorem apply_over_defaults {e : PortEcn α} {n : Named α} (hany : n.any = true) :
    (n.fillFrom (EcnUpdate.defaults f)).apply f = e.touched f n ↔ AtDefaults f e n := by
  have hmin : kilobytes 400 = e.kmin ↔ e.kmin = 400000 := eq_comm
  rw [PortEcn.touched, if_pos hany, PortEcn.ext_iff, AtDefaults]
  change kilobytes (n.kmin.getD 400) = _ ∧
    kilobytes (max (n.kmin.getD 400) (n.kmax.getD 1600)) = _ ∧
      f.clampProbability (n.pmax.getD f.fifth) = _ ↔ _
  dsimp only
  have hpmax : f.clampProbability (n.pmax.getD f.fifth) = f.clampProbability (n.pmax.getD e.pmax) ↔
      (n.pmax = none → f.clampProbability f.fifth = f.clampProbability e.pmax) := by
    cases n.pmax <;> simp
  rw [hpmax]
  -- what is not named falls back on 400, 1600 and 0.2, which may differ from the port
  cases hkmin : n.kmin with
  | some kmin =>
    cases n.kmax with
    | some kmax => simp
    | none =>
      simp only [Option.getD_some, Option.getD_none, Option.isSome_some, if_true, true_and,
        forall_const, reduceCtorEq, false_imp_iff]
      exact and_congr_left fun _ => kilobytes_max_default kmin e.kmax
  | none =>
    simp only [Option.getD_none, Option.isSome_none, Bool.false_eq_true, if_false, hmin,
      forall_const]
    refine and_congr_right fun h400 => and_congr_left fun _ => ?_
    have hport : e.getPort.kmin = 400 := by
      rw [PortEcn.getPort, h400]
      rfl
    rw [hport]
    cases n.kmax with
    | some kmax => simp
    | none =>
      simp only [Option.getD_none, forall_const]
      exact kilobytes_max_default 400 e.kmax

theorem apply_defaults : (EcnUpdate.defaults f).apply f =
    { kmin := 400000, kmax := 1600000, pmax := f.clampProbability f.fifth } := by
  have hmin : kilobytes 400 = 400000 := by decide
  have hmax : kilobytes (max 400 1600) = 1600000 := by decide
  exact PortEcn.ext hmin hmax rfl

/-- The update touches, at every port of the switch, the fields that the map names. -/
def NamedOnly (sw : EcnSwitch α) (m : ParameterMap) (sw' : EcnSwitch α) : Prop :=
  ∀ i < sw.nDevices, sw'.ports i = (sw.ports i).touched f (mentioned f sw m i)

/-- What port `i` must be like for that. -/
def PortKept (sw : EcnSwitch α) (m : ParameterMap) (i : Nat) : Prop :=
  if (portNamed f sw m i).any then WholeKilobytes (sw.ports i) (portNamed f sw m i)
  else if (globalNamed f m).any then AtDefaults f (sw.ports i) (globalNamed f m)
  else (∃ j < sw.nDevices, (portNamed f sw m j).any = true) ∨
    sw.ports i = { kmin := 400000, kmax := 1600000, pmax := f.clampProbability f.fifth }

theorem apply_iff {sw : EcnSwitch α} {m : ParameterMap} {u : EcnUpdate α}
    (h : EcnUpdate.Reads f sw m u) {i : Nat} (hi : i < sw.nDevices) :
    u.apply f sw i = (sw.ports i).touched f (mentioned f sw m i) ↔ PortKept f sw m i := by
  rw [EcnUpdate.apply, if_neg (Nat.not_le.mpr hi), h.portConfigs i hi, h.hasGlobalUpdate, h.global,
    PortKept, mentioned]
  cases hport : (portNamed f sw m i).any with
  | true =>
    rw [if_pos (h.hasPortUpdate.mpr ⟨i, hi, hport⟩)]
    simp only [if_true]
    exact apply_over_getPort f hport
  | false =>
    simp only [Bool.false_eq_true, if_false]
    cases hany : (globalNamed f m).any with
    | true =>
      simp only [if_true, ite_self]
      exact apply_over_defaults f hany
    | false =>
      rw [Named.fillFrom_of_not_any hany, PortEcn.touched, hany]
      simp only [Bool.false_eq_true, if_false, ← h.hasPortUpdate]
      split
      · next hp => exact iff_of_true rfl (.inl hp)
      · next hp =>
        rw [or_iff_right hp, apply_defaults, eq_comm]

/-- The fields that the map does not name stay as they are exactly when every port without
keys of its own is left out of the global update, or already has the values from which that
update starts, and the other ports have whole kilobytes. -/
theorem changeEcnThreshold_iff {sw sw' : EcnSwitch α} {m : ParameterMap}
    (h : changeEcnThreshold f sw m = some sw') :
    NamedOnly f sw m sw' ↔ ∀ i < sw.nDevices, PortKept f sw m i := by
  obtain ⟨u, hu, rfl⟩ := Option.map_eq_some_iff.mp h
  exact forall₂_congr fun i hi => apply_iff f (read_named f hu) hi

/-- Rationals for `double`, where no text is read as one. -/
def ratFloats : Floats ℚ :=
  { lt := fun x y => decide (x < y), zero := 0, one := 1, fifth := 1 / 5, stof := fun _ => none }

/-- Switch 64 with three devices. -/
def ecnSwitch : EcnSwitch ℚ :=
  { id := 64, nDevices := 3, ports := fun _ => { kmin := 100000, kmax := 400000, pmax := 1 / 5 } }

def portMap : ParameterMap :=
  [("switch.64.port.1.kmax".toList, "800".toList), ("switch.64.port.1.kmin".toList, "200".toList)]

theorem changeEcnThreshold_iff_portMap :
    ∃ sw', changeEcnThreshold ratFloats ecnSwitch portMap = some sw' ∧
      NamedOnly ratFloats ecnSwitch portMap sw' := by
  refine ⟨_, rfl, (changeEcnThreshold_iff ratFloats (m := portMap) rfl).mpr fun i hi => ?_⟩
  have hi' : i = 1 ∨ i = 0 ∨ i = 2 := by
    change i < 3 at hi
    omega
  unfold PortKept
  rcases hi' with rfl | hother
  · rw [if_pos (by decide)]
    exact ⟨fun h => absurd h (by decide), fun h => absurd h (by decide)⟩
  · rw [if_neg (by rcases hother with rfl | rfl <;> decide), if_neg (by decide)]
    exact .inl ⟨1, by decide, by decide⟩

/-- An empty map, as it is read from a file that was just truncated, resets every port. -/
theorem emptyMap_resets :
    ∃ sw', changeEcnThreshold ratFloats ecnSwitch [] = some sw' ∧
      (sw'.ports 1).kmin = 400000 ∧ ¬ NamedOnly ratFloats ecnSwitch [] sw' := by
  refine ⟨_, rfl, rfl, fun h => ?_⟩
  have hport := congrArg PortEcn.kmin (h 1 (by decide))
  exact absurd hport (by decide)

end Paraleon.Tuning
