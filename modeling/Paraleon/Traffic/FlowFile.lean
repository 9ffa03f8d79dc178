import Paraleon.Library.Streams

/-!
# Flow files

The three scripts that write flow files, and `third.cc`, which reads them: first the number of
flows, then `src dst pg dport size start_time` for each. Fields are 32-bit numbers there, and
nothing checks whether a read has failed.

* `readFlowFile_of_fits`: a file with its number of flows is read back.
* `readsBack_iff`: that is, as long as it has one and its numbers have 32 bits; the file that
  `write_flows_to_file` writes has none.
-/

namespace Paraleon.Traffic

open Numerals Streams

/-- `Flow` of a generator: the constructor raises the size to 100 bytes; the start time is a
finite double. -/
structure Flow where
  src : Nat
  dst : Nat
  dport : Nat
  size : Nat
  t : ℚ
  size_ge : 100 ≤ size
  finite : |t| ≤ maxDouble

/-- `str` of a flow, which is the same text in all three scripts. -/
def Flow.str (f : Flow) : Text :=
  decimal f.src ++ ' ' :: (decimal f.dst ++ ' ' :: '3' :: ' ' :: (decimal f.dport ++
    ' ' :: (decimal f.size ++ ' ' :: fixed 9 f.t)))

/-- `gen_traffic.py`. -/
def main (flows : List Flow) : Text :=
  decimal flows.length ++ '\n' :: flows.flatMap fun f => f.str ++ ['\n']

/-- `gen_llm_onoff_topo_s.py`. -/
def writeFlowFile (flows : List Flow) : Text :=
  decimal flows.length ++ '\n' :: flows.flatMap fun f => f.str ++ ['\n']

/-- `llm_traffic_gen.py`. -/
def writeFlowsToFile (flows : List Flow) : Text := flows.flatMap fun f => f.str ++ ['\n']

inductive Writer where
  | main
  | writeFlowFile
  | writeFlowsToFile
deriving DecidableEq

def Writer.write : Writer → List Flow → Text
  | .main => Traffic.main
  | .writeFlowFile => Traffic.writeFlowFile
  | .writeFlowsToFile => Traffic.writeFlowsToFile

/-! ## `third.cc` -/

/-- `FlowInput`; `maxPacketCount` is the size in bytes. -/
structure FlowInput where
  src : Nat
  dst : Nat
  pg : Nat
  maxPacketCount : Nat
  dport : Nat
  startTime : ℚ
deriving DecidableEq

/-- The global `flow_input`. -/
def FlowInput.zero : FlowInput :=
  { src := 0, dst := 0, pg := 0, maxPacketCount := 0, dport := 0, startTime := 0 }

/-- `ReadFlowInput`, for an index below `flow_num`. -/
def readFlowInput (fl : ℚ → ℚ) (flowf : Istream) (f : FlowInput) : FlowInput × Istream :=
  let (src, flowf) := flowf.readUInt32 f.src
  let (dst, flowf) := flowf.readUInt32 f.dst
  let (pg, flowf) := flowf.readUInt32 f.pg
  let (dport, flowf) := flowf.readUInt32 f.dport
  let (maxPacketCount, flowf) := flowf.readUInt32 f.maxPacketCount
  let (startTime, flowf) := flowf.readDouble fl f.startTime
  ({ src, dst, pg, maxPacketCount := max 1 maxPacketCount, dport, startTime }, flowf)

/-- The flows that are read one after the other, into the same variable. -/
def readFlows (fl : ℚ → ℚ) : Nat → Istream → FlowInput → List FlowInput
  | 0, _, _ => []
  | n + 1, flowf, f =>
    let (f, flowf) := readFlowInput fl flowf f
    f :: readFlows fl n flowf f

/-- `flow_num`, which is 0 before, and the flows. -/
def readFlowFile (fl : ℚ → ℚ) (text : Text) : Nat × List FlowInput :=
  let (flowNum, flowf) := Istream.readUInt32 ⟨text, false⟩ 0
  (flowNum, readFlows fl flowNum flowf .zero)

/-! ## Reading back -/

/-- The flow as it should be read: priority group 3, and the start time that is printed. -/
def Flow.expected (fl : ℚ → ℚ) (f : Flow) : FlowInput :=
  { src := f.src, dst := f.dst, pg := 3, maxPacketCount := f.size, dport := f.dport,
    startTime := fl (fixedValue 9 f.t) }

def ReadsBack (fl : ℚ → ℚ) (w : Writer) (flows : List Flow) : Prop :=
  readFlowFile fl (w.write flows) = (flows.length, flows.map (Flow.expected fl))

/-- The fields of a flow that are read as 32-bit numbers have 32 bits. -/
def Flow.Fits (f : Flow) : Prop :=
  f.src < 2 ^ 32 ∧ f.dst < 2 ^ 32 ∧ f.dport < 2 ^ 32 ∧ f.size < 2 ^ 32

variable {fl : ℚ → ℚ} {pre rest : Text} {flows : List Flow}

/-- One number of a line, and the blank behind it. -/
theorem readUInt32_field {n : Nat} (old : Nat) (hpre : ∀ d ∈ pre, isSpace d = true)
    (hn : n < 2 ^ 32) :
    Istream.readUInt32 ⟨pre ++ (decimal n ++ ' ' :: rest), false⟩ old = (n, ⟨' ' :: rest, false⟩) :=
  readUInt32_decimal old hpre (by simp [Char.isDigit]) hn

theorem readUInt32_next {n : Nat} (old : Nat) (hn : n < 2 ^ 32) :
    Istream.readUInt32 ⟨' ' :: (decimal n ++ ' ' :: rest), false⟩ old = (n, ⟨' ' :: rest, false⟩) :=
  readUInt32_field old (by simp [isSpace] : ∀ d ∈ [' '], isSpace d = true) hn

theorem readUInt32_first {n : Nat} (old : Nat) (hn : n < 2 ^ 32) :
    Istream.readUInt32 ⟨decimal n ++ ' ' :: rest, false⟩ old = (n, ⟨' ' :: rest, false⟩) :=
  readUInt32_field old (nofun : ∀ d ∈ [], isSpace d = true) hn

/-- The text of a flow as a sequence of numbers. -/
theorem str_append (f : Flow) (rest : Text) :
    f.str ++ rest = decimal f.src ++ ' ' :: (decimal f.dst ++ ' ' :: (decimal 3 ++
      ' ' :: (decimal f.dport ++ ' ' :: (decimal f.size ++ ' ' :: (fixed 9 f.t ++ rest))))) := by
  have hthree : decimal 3 = ['3'] := by decide
  simp [Flow.str, hthree]

/-- The line of a flow, behind a line break or at the start. -/
theorem readFlowInput_str {f : Flow} (old : FlowInput) (hf : f.Fits)
    (hpre : ∀ d ∈ pre, isSpace d = true) :
    readFlowInput fl ⟨pre ++ (f.str ++ '\n' :: rest), false⟩ old =
      (f.expected fl, ⟨'\n' :: rest, false⟩) := by
  obtain ⟨hsrc, hdst, hdport, hsize⟩ := hf
  have hblank : ∀ d ∈ [' '], isSpace d = true := by simp [isSpace]
  have htime : Istream.readDouble fl ⟨' ' :: (fixed 9 f.t ++ '\n' :: rest), false⟩ old.startTime =
      (fl (fixedValue 9 f.t), ⟨'\n' :: rest, false⟩) :=
    readDouble_fixed fl old.startTime (by decide) f.finite hblank (by simp [Char.isDigit])
  have hone : max 1 f.size = f.size := Nat.max_eq_right (Nat.le_trans (by decide) f.size_ge)
  rw [readFlowInput, str_append, readUInt32_field old.src hpre hsrc]
  simp only [readUInt32_next _ hdst, readUInt32_next _ hdport, readUInt32_next _ hsize,
    readUInt32_next _ (show 3 < 2 ^ 32 by decide), htime, hone]
  rfl

theorem readFlows_lines (old : FlowInput) (hfits : ∀ f ∈ flows, f.Fits) :
    readFlows fl flows.length ⟨'\n' :: flows.flatMap fun f => f.str ++ ['\n'], false⟩ old =
      flows.map (Flow.expected fl) := by
  have hbreak : ∀ d ∈ ['\n'], isSpace d = true := by simp [isSpace]
  induction flows generalizing old with
  | nil => rfl
  | cons f flows ih =>
    obtain ⟨hf, hrest⟩ := List.forall_mem_cons.mp hfits
    have hline : readFlowInput fl
        ⟨'\n' :: (f.str ++ '\n' :: flows.flatMap fun f => f.str ++ ['\n']), false⟩ old =
          (f.expected fl, ⟨'\n' :: flows.flatMap fun f => f.str ++ ['\n'], false⟩) :=
      readFlowInput_str old hf hbreak
    rw [List.flatMap_cons, List.append_assoc, List.singleton_append, List.length_cons, readFlows,
      hline, List.map_cons]
    exact congrArg (f.expected fl :: ·) (ih (f.expected fl) hrest)

/-- A file with the number of flows in front. -/
theorem readFlowFile_of_fits (fl : ℚ → ℚ) (hcount : flows.length < 2 ^ 32)
    (hfits : ∀ f ∈ flows, f.Fits) :
    readFlowFile fl (decimal flows.length ++ '\n' :: flows.flatMap fun f => f.str ++ ['\n']) =
      (flows.length, flows.map (Flow.expected fl)) := by
  have hread : Istream.readUInt32
      ⟨decimal flows.length ++ '\n' :: flows.flatMap fun f => f.str ++ ['\n'], false⟩ 0 =
        (flows.length, ⟨'\n' :: flows.flatMap fun f => f.str ++ ['\n'], false⟩) :=
    readUInt32_decimal 0 (nofun : ∀ c ∈ [], isSpace c = true) (by simp [Char.isDigit]) hcount
  rw [readFlowFile, hread]
  exact congrArg (Prod.mk _) (readFlows_lines .zero hfits)

/-! ## Numbers that are read have 32 bits -/

/-- The numbers in the variable have 32 bits. -/
structure FlowInput.Bounded (f : FlowInput) : Prop where
  src : f.src < 2 ^ 32
  dst : f.dst < 2 ^ 32
  pg : f.pg < 2 ^ 32
  maxPacketCount : f.maxPacketCount < 2 ^ 32
  dport : f.dport < 2 ^ 32

theorem bounded_readFlowInput {f : FlowInput} (flowf : Istream) (h : f.Bounded) :
    (readFlowInput fl flowf f).1.Bounded where
  src := readUInt32_lt _ h.src
  dst := readUInt32_lt _ h.dst
  pg := readUInt32_lt _ h.pg
  maxPacketCount := Nat.max_lt.mpr ⟨by decide, readUInt32_lt _ h.maxPacketCount⟩
  dport := readUInt32_lt _ h.dport

theorem bounded_readFlows {n : Nat} {flowf : Istream} {f : FlowInput} (h : f.Bounded) :
    ∀ g ∈ readFlows fl n flowf f, g.Bounded := by
  induction n generalizing flowf f with
  | zero => nofun
  | succ n ih =>
    have hf : (readFlowInput fl flowf f).1.Bounded := bounded_readFlowInput flowf h
    rw [readFlows]
    exact List.forall_mem_cons.mpr ⟨hf, ih hf⟩

/-- A file that is read back has numbers of 32 bits. -/
theorem fits_of_readsBack {text : Text}
    (h : readFlowFile fl text = (flows.length, flows.map (Flow.expected fl))) :
    flows.length < 2 ^ 32 ∧ ∀ f ∈ flows, f.Fits := by
  have hlt : (readFlowFile fl text).1 < 2 ^ 32 := by
    rw [readFlowFile]
    exact readUInt32_lt ⟨text, false⟩ (Nat.two_pow_pos 32)
  have hflows : (readFlowFile fl text).2 = flows.map (Flow.expected fl) := congrArg Prod.snd h
  rw [h] at hlt
  refine ⟨hlt, fun f hf => ?_⟩
  have hzero : FlowInput.zero.Bounded := by constructor <;> decide
  have hmem : f.expected fl ∈ flows.map (Flow.expected fl) := List.mem_map_of_mem hf
  rw [← hflows] at hmem
  have hbounded := bounded_readFlows hzero _ hmem
  exact ⟨hbounded.src, hbounded.dst, hbounded.dport, hbounded.maxPacketCount⟩

/-! ## A file without the number of flows -/

/-- The first flow is taken for the number of flows, and then every field for the one
before it: its size would have to be its port, and its port the priority group. -/
theorem not_readsBack_of_cons (f : Flow) (flows : List Flow) :
    ¬ReadsBack fl .writeFlowsToFile (f :: flows) := by
  intro h
  obtain ⟨hsrc, hdst, hdport, hsize⟩ := (fits_of_readsBack h).2 f List.mem_cons_self
  have htext : Writer.writeFlowsToFile.write (f :: flows) =
      f.str ++ '\n' :: writeFlowsToFile flows := by
    simp [Writer.write, writeFlowsToFile]
  obtain ⟨tail, htail⟩ : ∃ tail, tail = decimal f.dst ++ ' ' :: (decimal 3 ++ ' ' ::
    (decimal f.dport ++ ' ' :: (decimal f.size ++ ' ' :: (fixed 9 f.t ++
      '\n' :: writeFlowsToFile flows)))) := ⟨_, rfl⟩
  have hread : Istream.readUInt32 ⟨f.str ++ '\n' :: writeFlowsToFile flows, false⟩ 0 =
      (f.src, ⟨' ' :: tail, false⟩) := by
    rw [str_append, htail]
    exact readUInt32_first 0 hsrc
  rw [ReadsBack, htext, readFlowFile, hread] at h
  obtain ⟨hcount, hflows⟩ := Prod.mk.inj h
  rw [hcount, List.length_cons, readFlows, List.map_cons] at hflows
  have hfirst : (readFlowInput fl ⟨' ' :: tail, false⟩ .zero).1 = f.expected fl :=
    (List.cons.inj hflows).1
  have hpg : f.dport = 3 := by
    have := congrArg FlowInput.pg hfirst
    simpa only [readFlowInput, Flow.expected, htail, readUInt32_next _ hdst,
      readUInt32_next _ hdport, readUInt32_next _ (show 3 < 2 ^ 32 by decide)] using this
  have hport : f.size = f.dport := by
    have := congrArg FlowInput.dport hfirst
    simpa only [readFlowInput, Flow.expected, htail, readUInt32_next _ hdst,
      readUInt32_next _ hdport, readUInt32_next _ hsize,
      readUInt32_next _ (show 3 < 2 ^ 32 by decide)] using this
  have hsize := f.size_ge
  omega

/-- A file is read back exactly when it begins with the number of its flows, if it has any, and
all numbers have 32 bits. -/
theorem readsBack_iff (fl : ℚ → ℚ) (w : Writer) (flows : List Flow) : ReadsBack fl w flows ↔
    (w = .writeFlowsToFile → flows = []) ∧ flows.length < 2 ^ 32 ∧ ∀ f ∈ flows, f.Fits := by
  constructor
  · intro h
    refine ⟨?_, fits_of_readsBack h⟩
    rintro rfl
    cases flows with
    | nil => rfl
    | cons f flows => exact absurd h (not_readsBack_of_cons f flows)
  · rintro ⟨hheader, hcount, hfits⟩
    cases w with
    | main => exact readFlowFile_of_fits fl hcount hfits
    | writeFlowFile => exact readFlowFile_of_fits fl hcount hfits
    | writeFlowsToFile =>
      rw [hheader rfl]
      rfl

/-- A flow of 12 MiB that starts at once. -/
def exFlow : Flow :=
  { src := 0, dst := 1, dport := 10000, size := 12582912, t := 0, size_ge := by decide,
    finite := by
      rw [abs_zero, maxDouble]
      exact sub_nonneg.mpr (pow_le_pow_right₀ one_le_two (by decide)) }

/-- Its file begins with the number 0 of the source host, and no flow is read. -/
theorem source_taken_for_count :
    readFlowFile (fun x => x) (writeFlowsToFile [exFlow]) = (0, []) ∧
      ¬ReadsBack (fun x => x) .writeFlowsToFile [exFlow] := by
  have hread : readFlowFile (fun x => x) (writeFlowsToFile [exFlow]) = (0, []) := by
    have hsrc : exFlow.src < 2 ^ 32 := by decide
    have htext : writeFlowsToFile [exFlow] = exFlow.str ++ '\n' :: [] := by
      simp [writeFlowsToFile]
    rw [htext, readFlowFile, str_append, readUInt32_first 0 hsrc]
    rfl
  refine ⟨hread, fun h => ?_⟩
  have hcount : 0 = 1 := congrArg Prod.fst (hread.symm.trans h)
  exact Nat.zero_ne_one hcount

end Paraleon.Traffic
