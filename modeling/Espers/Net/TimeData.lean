import Mathlib.Data.List.Induction
import Espers.Addr.Manager
import Espers.Lib.Median

/-!
# The time of the peers

`AddTimeData` takes one sample of the time from each address, keeps the last 200 of them in a
filter that starts with a zero, and moves the clock by their median when their number is odd.

* `vValues_run` : the filter holds the last 200 of the zero and of the first sample of each address.
* `isMedian_addTimeData` : the clock is moved by the median of what is held, or not at all.
* `timeOffset_run` : **the clock is moved by less than 70 minutes throughout a run exactly if the
  median was never the least 64-bit number**, whose `abs64` is negative.
-/

namespace Espers

open Median List

/-! ### The source -/

/-- `abs64`, in two's complement. -/
def abs64 (n : BitVec 64) : BitVec 64 := if 0 ≤ n.toInt then n else -n

/-- `CMedianFilter<int64_t>`. -/
structure CMedianFilter where
  vValues : List (BitVec 64)
  vSorted : List (BitVec 64)
  nSize : ℕ
  deriving DecidableEq

namespace CMedianFilter

/-- `CMedianFilter(size, initial_value)`. -/
def new (size : ℕ) (initialValue : BitVec 64) : CMedianFilter :=
  ⟨[initialValue], [initialValue], size⟩

/-- `vValues` after an input, for which the oldest value makes room. -/
def heldWith (f : CMedianFilter) (value : BitVec 64) : List (BitVec 64) :=
  (if f.vValues.length = f.nSize then f.vValues.drop 1 else f.vValues) ++ [value]

/-- `input`. -/
def input (f : CMedianFilter) (value : BitVec 64) : CMedianFilter :=
  ⟨f.heldWith value, (f.heldWith value).mergeSort fun a b => a.toInt ≤ b.toInt, f.nSize⟩

/-- `median`. -/
def median (f : CMedianFilter) : BitVec 64 :=
  let size := f.vSorted.length
  if size % 2 = 1 then f.vSorted.getD (size / 2) 0
  else (f.vSorted.getD (size / 2 - 1) 0 + f.vSorted.getD (size / 2) 0).sdiv 2

end CMedianFilter

/-- The message about the clock. -/
def clockWarning : String :=
  "Warning: Please check that your computer's date and time are correct! " ++
    "If your clock is wrong Espers will not work properly."

/-- The static variables of `timedata.cpp` and `AddTimeData`, and `strMiscWarning`. -/
structure TimeData where
  nTimeOffset : BitVec 64
  setKnown : List CNetAddr
  vTimeOffsets : CMedianFilter
  fDone : Bool
  strMiscWarning : String
  deriving DecidableEq

/-- What the variables begin with. -/
def TimeData.initial : TimeData := ⟨0, [], .new 200 0, false, ""⟩

/-- A call of `AddTimeData`, with the time that `GetTime` gives. -/
structure TimeCall where
  ip : CNetAddr
  nTime : BitVec 64
  getTime : BitVec 64

/-- `nOffsetSample`. -/
def TimeCall.sample (c : TimeCall) : BitVec 64 := c.nTime - c.getTime

/-- `AddTimeData`. -/
def addTimeData (s : TimeData) (c : TimeCall) : TimeData :=
  -- ignore duplicates
  if c.ip ∈ s.setKnown then s
  else
    let f := s.vTimeOffsets.input c.sample
    let s := { s with setKnown := c.ip :: s.setKnown, vTimeOffsets := f }
    if f.vValues.length ≥ 5 ∧ f.vValues.length % 2 = 1 then
      let nMedian := f.median
      -- only let other nodes change our time by so much
      if (abs64 nMedian).toInt < 70 * 60 then { s with nTimeOffset := nMedian }
      else if s.fDone || f.vSorted.any fun n => n != 0 && (abs64 n).toInt < 5 * 60 then
        { s with nTimeOffset := 0 }
      else { s with nTimeOffset := 0, fDone := true, strMiscWarning := clockWarning }
    else s

/-- The variables after some calls. -/
def runTimeData (cs : List TimeCall) : TimeData := cs.foldl addTimeData .initial

/-! ### The filter -/

/-- The call takes a sample, and then the filter holds an odd number of values, five at least. -/
def Updates (s : TimeData) (c : TimeCall) : Prop :=
  c.ip ∉ s.setKnown ∧ (s.vTimeOffsets.heldWith c.sample).length ≥ 5 ∧
    (s.vTimeOffsets.heldWith c.sample).length % 2 = 1

instance (s : TimeData) (c : TimeCall) : Decidable (Updates s c) :=
  inferInstanceAs (Decidable (_ ∧ _ ∧ _))

/-- The least 64-bit number. -/
def int64Min : BitVec 64 := BitVec.intMin 64

/-- Where the call moves the clock, not more than half of what is held is the least number. -/
def Harmless (s : TimeData) (c : TimeCall) : Prop :=
  Updates s c → 2 * (s.vTimeOffsets.heldWith c.sample).count int64Min ≤
    (s.vTimeOffsets.heldWith c.sample).length

/-- The middle of an odd number of values is their median. -/
theorem CMedianFilter.isMedian_input (f : CMedianFilter) (value : BitVec 64)
    (hodd : (f.heldWith value).length % 2 = 1) :
    IsMedian ((f.heldWith value).map BitVec.toInt) (f.input value).median.toInt := by
  have hperm : (f.input value).vSorted.Perm (f.heldWith value) := mergeSort_perm _ _
  have hsorted : (f.input value).vSorted.Pairwise fun a b => a.toInt ≤ b.toInt := by
    have h : (f.input value).vSorted.Pairwise fun a b => decide (a.toInt ≤ b.toInt) = true :=
      pairwise_mergeSort (by simp; intros; omega) (by simp; intros; omega) _
    simp only [decide_eq_true_eq] at h
    exact h
  generalize f.input value = g at hperm hsorted ⊢
  have hlen := hperm.length_eq
  have hi : g.vSorted.length / 2 < g.vSorted.length := by omega
  have hi' : g.vSorted.length / 2 < (g.vSorted.map BitVec.toInt).length := by
    rwa [length_map]
  have hmedian : g.median.toInt = (g.vSorted.map BitVec.toInt)[g.vSorted.length / 2] := by
    rw [median, if_pos (by omega), getD_eq_getElem?_getD, getElem?_eq_getElem hi, getElem_map]
    rfl
  rw [hmedian]
  exact isMedian_getElem (pairwise_map.2 hsorted) (hperm.map _) _ (by
    rw [length_map]
    omega)

theorem count_map_toInt (l : List (BitVec 64)) (n : BitVec 64) :
    (l.map BitVec.toInt).count n.toInt = l.count n := by
  rw [List.count, List.count, countP_map]
  refine countP_congr fun x _ => ?_
  simp [BitVec.toInt_inj]

theorem median_eq_int64Min_iff (f : CMedianFilter) (value : BitVec 64)
    (hodd : (f.heldWith value).length % 2 = 1) :
    (f.input value).median = int64Min ↔
      (f.heldWith value).length < 2 * (f.heldWith value).count int64Min := by
  have hleast : ∀ x ∈ (f.heldWith value).map BitVec.toInt, int64Min.toInt ≤ x := by
    intro x hx
    obtain ⟨n, -, rfl⟩ := mem_map.1 hx
    exact BitVec.le_toInt n
  have hiff := (f.isMedian_input value hodd).eq_iff_count hleast
  rw [length_map, count_map_toInt] at hiff
  rw [← hiff]
  exact ⟨fun h => by rw [h], BitVec.eq_of_toInt_eq⟩

theorem natAbs_lt_iff (n : BitVec 64) : n.toInt.natAbs < 70 * 60 ↔
    (abs64 n).toInt < 70 * 60 ∧ n ≠ int64Min := by
  by_cases hn : n = int64Min
  · subst hn
    decide
  · unfold abs64
    split_ifs with h0
    · simp only [hn, ne_eq, not_false_eq_true, and_true]
      omega
    · rw [BitVec.toInt_neg_of_ne_intMin hn]
      simp only [hn, ne_eq, not_false_eq_true, and_true]
      omega

variable {s : TimeData} {c : TimeCall}

theorem nTimeOffset_addTimeData_of_not (h : ¬ Updates s c) :
    (addTimeData s c).nTimeOffset = s.nTimeOffset := by
  unfold addTimeData
  by_cases hknown : c.ip ∈ s.setKnown
  · rw [if_pos hknown]
  · rw [if_neg hknown]
    dsimp only
    exact (congrArg TimeData.nTimeOffset (if_neg fun hlen => h ⟨hknown, hlen⟩)).trans rfl

theorem nTimeOffset_addTimeData (h : Updates s c) : (addTimeData s c).nTimeOffset =
    if (abs64 (s.vTimeOffsets.input c.sample).median).toInt < 70 * 60 then
      (s.vTimeOffsets.input c.sample).median else 0 := by
  obtain ⟨hnew, hlen⟩ := h
  unfold addTimeData
  rw [if_neg hnew]
  refine (congrArg TimeData.nTimeOffset (if_pos hlen)).trans ?_
  by_cases hsmall : (abs64 (s.vTimeOffsets.input c.sample).median).toInt < 70 * 60
  · rw [if_pos hsmall, if_pos hsmall]
  · rw [if_neg hsmall, if_neg hsmall]
    split <;> rfl

theorem natAbs_addTimeData_lt_iff (h : s.nTimeOffset.toInt.natAbs < 70 * 60) :
    (addTimeData s c).nTimeOffset.toInt.natAbs < 70 * 60 ↔ Harmless s c := by
  by_cases hup : Updates s c
  · have hmin := median_eq_int64Min_iff s.vTimeOffsets c.sample hup.2.2
    rw [nTimeOffset_addTimeData hup]
    by_cases hsmall : (abs64 (s.vTimeOffsets.input c.sample).median).toInt < 70 * 60
    · rw [if_pos hsmall, natAbs_lt_iff, Harmless, ← not_lt, ← hmin]
      exact ⟨fun hand _ => hand.2, fun himp => ⟨hsmall, himp hup⟩⟩
    · rw [if_neg hsmall]
      refine ⟨fun _ _ => not_lt.1 fun hhalf => hsmall ?_, fun _ => by decide⟩
      rw [hmin.2 hhalf]
      decide
  · rw [nTimeOffset_addTimeData_of_not hup]
    exact ⟨fun _ hup' => absurd hup' hup, fun _ => h⟩

/-! ### Runs -/

/-- The first call from each address. -/
def firstCalls (cs : List TimeCall) : List TimeCall :=
  cs.foldl (fun fs c => if c.ip ∈ fs.map TimeCall.ip then fs else fs ++ [c]) []

theorem runTimeData_concat (cs : List TimeCall) (c : TimeCall) :
    runTimeData (cs ++ [c]) = addTimeData (runTimeData cs) c := by
  rw [runTimeData, foldl_append]
  rfl

theorem firstCalls_concat (cs : List TimeCall) (c : TimeCall) : firstCalls (cs ++ [c]) =
    if c.ip ∈ (firstCalls cs).map TimeCall.ip then firstCalls cs else firstCalls cs ++ [c] := by
  rw [firstCalls, foldl_append]
  rfl

theorem firstCalls_spec (cs : List TimeCall) :
    ((firstCalls cs).map TimeCall.ip).Nodup ∧ (firstCalls cs).Sublist cs := by
  induction cs using List.reverseRecOn with
  | nil => exact ⟨.nil, .slnil⟩
  | append_singleton cs c ih =>
    rw [firstCalls_concat]
    split_ifs with hc
    · exact ⟨ih.1, ih.2.trans (sublist_append_left cs [c])⟩
    · refine ⟨?_, ih.2.append_right [c]⟩
      rw [map_append, map_singleton, ← concat_eq_append, nodup_concat]
      exact ⟨hc, ih.1⟩

theorem input_addTimeData (h : c.ip ∉ s.setKnown) :
    (addTimeData s c).setKnown = c.ip :: s.setKnown ∧
      (addTimeData s c).vTimeOffsets = s.vTimeOffsets.input c.sample := by
  unfold addTimeData
  rw [if_neg h]
  dsimp only
  split
  · split
    · exact ⟨rfl, rfl⟩
    · split <;> exact ⟨rfl, rfl⟩
  · exact ⟨rfl, rfl⟩

theorem drop_concat {α : Type*} {n : ℕ} (hn : 0 < n) (l : List α) (x : α) :
    (if (l.drop (l.length - n)).length = n then (l.drop (l.length - n)).drop 1
      else l.drop (l.length - n)) ++ [x] = (l ++ [x]).drop (l.length + 1 - n) := by
  rw [drop_append_of_le_length (by omega), length_drop, drop_drop]
  by_cases hfull : n ≤ l.length
  · rw [if_pos (by omega), show l.length - n + 1 = l.length + 1 - n by omega]
  · rw [if_neg (by omega), show l.length - n = l.length + 1 - n by omega]

/-- The filter holds the last 200 of the zero and the first sample of each address. -/
theorem vValues_run (cs : List TimeCall) :
    (∀ ip, ip ∈ (runTimeData cs).setKnown ↔ ip ∈ (firstCalls cs).map TimeCall.ip) ∧
      (runTimeData cs).vTimeOffsets.nSize = 200 ∧
      (runTimeData cs).vTimeOffsets.vValues =
        (0 :: (firstCalls cs).map TimeCall.sample).drop ((firstCalls cs).length + 1 - 200) := by
  induction cs using List.reverseRecOn with
  | nil => exact ⟨fun ip => .rfl, rfl, rfl⟩
  | append_singleton cs c ih =>
    obtain ⟨hknown, hsize, hvalues⟩ := ih
    rw [runTimeData_concat, firstCalls_concat]
    by_cases hc : c.ip ∈ (firstCalls cs).map TimeCall.ip
    · rw [if_pos hc, addTimeData, if_pos ((hknown _).2 hc)]
      exact ⟨hknown, hsize, hvalues⟩
    · obtain ⟨hset, hfilter⟩ := input_addTimeData fun hin => hc ((hknown _).1 hin)
      rw [if_neg hc, hset, hfilter]
      refine ⟨fun ip => by simp [hknown, or_comm], hsize, ?_⟩
      generalize hL : (0 :: (firstCalls cs).map TimeCall.sample : List (BitVec 64)) = L at hvalues
      have hlen : L.length = (firstCalls cs).length + 1 := by simp [← hL]
      have happ : (0 :: (firstCalls cs ++ [c]).map TimeCall.sample : List (BitVec 64)) =
          L ++ [c.sample] := by simp [← hL]
      change (runTimeData cs).vTimeOffsets.heldWith c.sample = _
      rw [happ, CMedianFilter.heldWith, hsize, hvalues, length_append, length_singleton, ← hlen]
      exact drop_concat (by norm_num) L c.sample

/-- **The clock is moved by less than 70 minutes throughout a run exactly if every step is
harmless**, and it is moved by the median of what the filter holds, which has one sample at most
from each address. -/
theorem timeOffset_run (cs : List TimeCall) :
    ((∀ pre, pre <+: cs → (runTimeData pre).nTimeOffset.toInt.natAbs < 70 * 60) ↔
      ∀ pre c, pre ++ [c] <+: cs → Harmless (runTimeData pre) c) ∧
    (∀ c, if Updates (runTimeData cs) c then
      ∃ m : BitVec 64,
        IsMedian (((runTimeData cs).vTimeOffsets.heldWith c.sample).map BitVec.toInt) m.toInt ∧
        (runTimeData (cs ++ [c])).nTimeOffset = if (abs64 m).toInt < 70 * 60 then m else 0
      else (runTimeData (cs ++ [c])).nTimeOffset = (runTimeData cs).nTimeOffset) ∧
    (runTimeData cs).vTimeOffsets.vValues =
      (0 :: (firstCalls cs).map TimeCall.sample).drop ((firstCalls cs).length + 1 - 200) ∧
    ((firstCalls cs).map TimeCall.ip).Nodup ∧ (firstCalls cs).Sublist cs := by
  refine ⟨⟨fun h pre c hpre => ?_, fun h pre => ?_⟩, fun c => ?_, (vValues_run cs).2.2,
    firstCalls_spec cs⟩
  · have hafter := h _ hpre
    rw [runTimeData_concat] at hafter
    exact (natAbs_addTimeData_lt_iff (h pre ((prefix_append pre [c]).trans hpre))).1 hafter
  · induction pre using List.reverseRecOn with
    | nil => exact fun _ => by decide
    | append_singleton pre c ih =>
      intro hpre
      rw [runTimeData_concat]
      exact (natAbs_addTimeData_lt_iff (ih ((prefix_append pre [c]).trans hpre))).2
        (h pre c hpre)
  · rw [runTimeData_concat]
    split_ifs with hup
    · exact ⟨_, CMedianFilter.isMedian_input _ _ hup.2.2, nTimeOffset_addTimeData hup⟩
    · exact nTimeOffset_addTimeData_of_not hup

/-- Four peers whose time is off by `2 ^ 63`. -/
def farPeers : List TimeCall :=
  [1, 2, 3, 4].map fun ip => ⟨ip, 1600000000 + int64Min, 1600000000⟩

/-- They move the clock by more than 70 minutes. -/
theorem timeOffset_farPeers : ¬ (runTimeData farPeers).nTimeOffset.toInt.natAbs < 70 * 60 := by
  have hsplit : farPeers = farPeers.take 3 ++ [⟨4, 1600000000 + int64Min, 1600000000⟩] := rfl
  rw [hsplit, runTimeData_concat, natAbs_addTimeData_lt_iff (by decide)]
  intro h
  exact absurd (h ⟨by decide, by decide, by decide⟩) (by decide)

end Espers
