import Mathlib.Algebra.Order.Floor.Semifield
import Mathlib.Data.Rat.Floor
import RanetLite.Lemmas.Writes

/-!
# The cost of a link

A round trip that is stored is an average of measured ones, and a measured one lies between zero and the horizon of its
timestamps. That bounds the product in `RTTPenalty`, so the penalty is the floor of the interpolation it states. The sums and
products of a link cost are cut off at infinity, and cutting off keeps an order.
-/

namespace RanetLite.Babel

/-- A round trip an IHU can measure. -/
def Storable (rtt : Duration) : Prop := 0 < rtt ∧ rtt ≤ rttTimestampHorizon

/-- The penalty of a round trip before rounding: none up to `min`, all of the weight from `max` on, and linear between. Where the span
is empty there is none, however long the round trip. -/
def RTTCost.interpolated (c : RTTCost) (rtt : Duration) : ℚ :=
  if c.max ≤ c.min then 0
  else c.weight.toNat * Max.max 0 (Min.min 1 (((rtt - c.min : Int) : ℚ) / ((c.max - c.min : Int) : ℚ)))

/-- The samples behind the average once an IHU was heard: one that finds no average starts it again. -/
def NeighborState.resample (st : NeighborState) (samples : List Duration) (ihu : IHU) (helloTS : Option UInt32) (now : Time) :
    List Duration :=
  match NeighborState.roundTrip ihu helloTS now with
  | none => samples
  | some rtt => if st.haveRTT then samples ++ [rtt] else [rtt]

/-- The histories of a link and the round trips its average is of: a new link, an IHU or a Hello heard, what a sweep drops, and the
other writes of a pass. -/
inductive NeighborState.Measured : NeighborState → List Duration → Prop
  | fresh (peer : Peer) : Measured { peer := peer } []
  | heard {st st' : NeighborState} {samples : List Duration} {ihu : IHU} {helloTS : Option UInt32} {now : Time}
      (h : Measured st samples) (heard : st.hearIHU ihu helloTS now = some st') :
      Measured st' (st.resample samples ihu helloTS now)
  | hello {st st' : NeighborState} {samples : List Duration} {hello : Hello} {now : Time} (h : Measured st samples)
      (heard : st.hearHello hello now = some st') : Measured st' samples
  | sweep {st : NeighborState} {samples : List Duration} (h : Measured st samples) (now : Time) : Measured (st.sweep now) samples
  | rest {st : NeighborState} {samples : List Duration} (h : Measured st samples) (addr : Netip.Addr) (sent : Bool) (seqno : UInt16)
      (dumped : Time) (owed advertised : GoSet RouteKey) :
      Measured { st with
        addr := addr, sentHello := sent, helloSeqno := seqno, lastFullDump := dumped, owed := owed, advertised := advertised } samples

/-- An average within its samples, each of which an IHU can measure. -/
structure NeighborState.Averages (st : NeighborState) (samples : List Duration) : Prop where
  storable : ∀ rtt ∈ samples, Storable rtt
  least : ∃ rtt ∈ samples, rtt ≤ st.measuredRTT
  greatest : ∃ rtt ∈ samples, st.measuredRTT ≤ rtt

/-- The costs of a link under one configuration: exact, ordered and cut off at infinity. -/
structure CostParams.Exact (p : CostParams) : Prop where
  fits : ∀ rtt, Storable rtt → p.rtt.weight.toNat * (rtt - p.rtt.min).toNat < 2 ^ 64
  penalty : ∀ rtt, Storable rtt → (p.rttPenalty rtt true).toNat = ⌊p.rtt.interpolated rtt⌋₊
  bounded : ∀ rtt haveRTT, p.rttPenalty rtt haveRTT ≤ p.rtt.weight
  mono : ∀ rtt rtt', Storable rtt → Storable rtt' → rtt ≤ rtt' → p.rttPenalty rtt true ≤ p.rttPenalty rtt' true
  cost_reported : ∀ (st : NeighborState) now cost cost', cost ≤ cost' →
    { st with reportedCost := cost }.linkCost now p ≤ { st with reportedCost := cost' }.linkCost now p
  cost_rtt : ∀ (st : NeighborState) now rtt rtt', Storable rtt → Storable rtt' → rtt ≤ rtt' →
    { st with measuredRTT := rtt }.linkCost now p ≤ { st with measuredRTT := rtt' }.linkCost now p
  cost_hellos : ∀ (st : NeighborState) now (h h' : HelloHistory) received received' window, h.beta = some (received, window) →
    h'.beta = some (received', window) → received ≤ received' →
    { st with multicastHistory := h' }.linkCost now p ≤ { st with multicastHistory := h }.linkCost now p
  cost_sum : ∀ (st : NeighborState) now, st.isAlive now = true → st.haveReportedCost = true → now < st.ihuExpiry →
    (st.linkCost now p).toNat = min metricInfinity.toNat
      ((p.linkQualityCost st.multicastHistory st.reportedCost).toNat + (p.rttPenalty st.measuredRTT st.haveRTT).toNat)
  cost_scaled : ∀ (h : HelloHistory) cost received window, p.quality = .etx → cost ≠ metricInfinity →
    h.beta = some (received, window) → received ≠ 0 →
    (p.linkQualityCost h cost).toNat = min metricInfinity.toNat (cost.toNat * window / received)

namespace CostAux

variable {p : CostParams} {rx weight : UInt16} {quality : LinkQuality} {low high rtt rtt' : Int} {st st' : NeighborState} {now : Time}
  {ihu : IHU} {helloTS : Option UInt32} {samples : List Duration}

/-! ### What is cut off -/

theorem saturatingAdd_le {a a' b b' : UInt16} (ha : a ≤ a') (hb : b ≤ b') : saturatingAdd a b ≤ saturatingAdd a' b' := by
  rw [UInt16.le_iff_toNat_le] at ha hb ⊢
  rw [toNat_saturatingAdd, toNat_saturatingAdd]
  omega

/-- Quality scaling is monotone. -/
theorem linkQualityCost_le {h : HelloHistory} {cost cost' : UInt16} (hle : cost ≤ cost') :
    p.linkQualityCost h cost ≤ p.linkQualityCost h cost' := by
  unfold CostParams.linkQualityCost
  by_cases hinf' : cost' = metricInfinity
  · rw [if_pos hinf']
    exact le_metricInfinity _
  · have hinf : cost ≠ metricInfinity := by
      rintro rfl
      exact hinf' (UInt16.le_antisymm (le_metricInfinity cost') hle)
    rw [if_neg hinf, if_neg hinf']
    split
    · split_ifs
      · exact UInt16.le_refl _
      · rw [UInt16.le_iff_toNat_le] at hle ⊢
        rw [toNat_scaleCost, toNat_scaleCost]
        exact min_le_min_left _ (Nat.div_le_div_right (Nat.mul_le_mul_right _ hle))
    · exact hle

/-- More hellos heard never cost more. -/
theorem linkQualityCost_hellos {h h' : HelloHistory} {received received' window : Nat} (hb : h.beta = some (received, window))
    (hb' : h'.beta = some (received', window)) (hle : received ≤ received') (cost : UInt16) :
    p.linkQualityCost h' cost ≤ p.linkQualityCost h cost := by
  unfold CostParams.linkQualityCost
  rw [hb, hb']
  split_ifs with hinf
  · exact UInt16.le_refl _
  · cases p.quality with
    | none => exact UInt16.le_refl _
    | etx =>
      dsimp only
      split_ifs with hr' hr hr
      · exact UInt16.le_refl _
      · omega
      · exact le_metricInfinity _
      · rw [UInt16.le_iff_toNat_le, toNat_scaleCost, toNat_scaleCost]
        exact min_le_min_left _ (Nat.div_le_div_left hle (Nat.pos_of_ne_zero hr))

/-- Of two links that are both up or both down the one with the smaller parts costs no more. -/
theorem linkCost_le (halive : st.isAlive now = st'.isAlive now) (hreported : st.haveReportedCost = st'.haveReportedCost)
    (hihu : st.ihuExpiry = st'.ihuExpiry)
    (hquality : p.linkQualityCost st.multicastHistory st.reportedCost ≤ p.linkQualityCost st'.multicastHistory st'.reportedCost)
    (hpenalty : p.rttPenalty st.measuredRTT st.haveRTT ≤ p.rttPenalty st'.measuredRTT st'.haveRTT) :
    st.linkCost now p ≤ st'.linkCost now p := by
  unfold NeighborState.linkCost
  rw [halive, hreported, hihu]
  split_ifs
  · exact UInt16.le_refl _
  · exact saturatingAdd_le hquality hpenalty

/-! ### The penalty -/

/-- The product does not wrap. -/
theorem product_fits (hmin : 0 ≤ low) (h : Storable rtt) : weight.toNat * (rtt - low).toNat < 2 ^ 64 := by
  have hw := weight.toNat_lt
  have hle : rtt ≤ 180000000000 := h.2
  calc weight.toNat * (rtt - low).toNat ≤ 65536 * 180000000000 := Nat.mul_le_mul (by omega) (by omega)
    _ < 2 ^ 64 := by norm_num

/-- Between the two ends the penalty is a quotient below the weight. -/
theorem quotient_lt {weight d span : Nat} (hw : 0 < weight) (hd : d < span) : weight * d / span < weight := by
  rw [Nat.div_lt_iff_lt_mul (by omega)]
  exact Nat.mul_lt_mul_of_pos_left hd hw

theorem weight_pos (h : weight ≠ 0) : 0 < weight.toNat :=
  Nat.pos_of_ne_zero fun hzero => h (UInt16.toNat.inj hzero)

/-- The penalty is capped. -/
theorem penalty_le (haveRTT : Bool) : CostParams.rttPenalty ⟨rx, ⟨weight, low, high⟩, quality⟩ rtt haveRTT ≤ weight := by
  unfold CostParams.rttPenalty
  dsimp only
  split_ifs with hnone hfull
  · rw [UInt16.le_iff_toNat_le]
    exact Nat.zero_le _
  · exact UInt16.le_refl _
  · simp only [Bool.or_eq_true, Bool.not_eq_true', decide_eq_true_eq, not_or, not_le] at hnone
    have hspan : low < high := hnone.1.2
    have hlow : low < rtt := hnone.2
    have hhigh : rtt < high := not_le.1 hfull
    have hq : weight.toNat * (rtt - low).toNat % 2 ^ 64 / (high - low).toNat < weight.toNat :=
      lt_of_le_of_lt (Nat.div_le_div_right (Nat.mod_le _ _)) (quotient_lt (weight_pos hnone.1.1.2) (by omega))
    rw [UInt16.le_iff_toNat_le, UInt16.toNat_ofNat_of_lt' (lt_trans hq weight.toNat_lt)]
    exact le_of_lt hq

/-- Without a weight, without a span, or up to its start the interpolation is zero. -/
theorem interpolated_zero (hmax : low ≤ high) (h : weight = 0 ∨ high ≤ low ∨ rtt ≤ low) :
    RTTCost.interpolated ⟨weight, low, high⟩ rtt = 0 := by
  unfold RTTCost.interpolated
  dsimp only
  rcases h with rfl | hspan | hlow
  · simp
  · rw [if_pos hspan]
  · split_ifs
    · rfl
    · rw [max_eq_left, mul_zero]
      refine min_le_of_right_le (div_nonpos_of_nonpos_of_nonneg ?_ ?_)
      · exact_mod_cast (by omega : rtt - low ≤ 0)
      · exact_mod_cast (by omega : 0 ≤ high - low)

/-- From its end on the interpolation is the weight. -/
theorem interpolated_full (hspan : low < high) (h : high ≤ rtt) : RTTCost.interpolated ⟨weight, low, high⟩ rtt = weight.toNat := by
  unfold RTTCost.interpolated
  rw [if_neg (not_le.2 hspan)]
  dsimp only
  have hone : (1 : ℚ) ≤ ((rtt - low : Int) : ℚ) / ((high - low : Int) : ℚ) := by
    rw [le_div_iff₀ (by exact_mod_cast (by omega : 0 < high - low)), one_mul]
    exact_mod_cast (by omega : high - low ≤ rtt - low)
  rw [min_eq_left hone, max_eq_right zero_le_one, mul_one]

/-- In its span the interpolation is a quotient of natural numbers. -/
theorem interpolated_between (hlow : low < rtt) (hhigh : rtt < high) :
    RTTCost.interpolated ⟨weight, low, high⟩ rtt = ((weight.toNat * (rtt - low).toNat : Nat) : ℚ) / ((high - low).toNat : Nat) := by
  obtain ⟨d, hd⟩ := Int.eq_ofNat_of_zero_le (by omega : 0 ≤ rtt - low)
  obtain ⟨span, hspan⟩ := Int.eq_ofNat_of_zero_le (by omega : 0 ≤ high - low)
  have hlt : d < span := by omega
  have hpos : (0 : ℚ) < span := by exact_mod_cast (by omega : 0 < span)
  unfold RTTCost.interpolated
  rw [if_neg (not_le.2 (hlow.trans hhigh))]
  dsimp only
  rw [hd, hspan, Int.toNat_natCast, Int.toNat_natCast, Int.cast_natCast, Int.cast_natCast]
  have hbelow : (d : ℚ) / span ≤ 1 := by
    rw [div_le_one hpos]
    exact_mod_cast hlt.le
  rw [min_eq_right hbelow, max_eq_right (by positivity), ← mul_div_assoc, Nat.cast_mul]

/-- The penalty is the floor of the line. -/
theorem penalty_exact (hmin : 0 ≤ low) (hmax : low ≤ high) (h : Storable rtt) :
    (CostParams.rttPenalty ⟨rx, ⟨weight, low, high⟩, quality⟩ rtt true).toNat =
      ⌊RTTCost.interpolated ⟨weight, low, high⟩ rtt⌋₊ := by
  unfold CostParams.rttPenalty
  dsimp only
  split_ifs with hnone hfull
  · simp only [Bool.not_true, Bool.false_or, Bool.or_eq_true, decide_eq_true_eq, or_assoc] at hnone
    rw [interpolated_zero hmax hnone, Nat.floor_zero]
    rfl
  · simp only [Bool.not_true, Bool.false_or, Bool.or_eq_true, decide_eq_true_eq, not_or, not_le] at hnone
    rw [interpolated_full hnone.1.2 hfull, Nat.floor_natCast]
  · simp only [Bool.not_true, Bool.false_or, Bool.or_eq_true, decide_eq_true_eq, not_or, not_le] at hnone
    have hlow : low < rtt := hnone.2
    have hhigh : rtt < high := not_le.1 hfull
    have hq : weight.toNat * (rtt - low).toNat / (high - low).toNat < weight.toNat :=
      quotient_lt (weight_pos hnone.1.1) (by omega)
    rw [interpolated_between hlow hhigh, Nat.floor_div_eq_div, Nat.mod_eq_of_lt (product_fits hmin h),
      UInt16.toNat_ofNat_of_lt' (lt_trans hq weight.toNat_lt)]

theorem interpolated_mono (hmax : low ≤ high) (h : rtt ≤ rtt') :
    RTTCost.interpolated ⟨weight, low, high⟩ rtt ≤ RTTCost.interpolated ⟨weight, low, high⟩ rtt' := by
  unfold RTTCost.interpolated
  have hspan : (0 : ℚ) ≤ ((high - low : Int) : ℚ) := by exact_mod_cast (by omega : 0 ≤ high - low)
  have hle : ((rtt - low : Int) : ℚ) ≤ ((rtt' - low : Int) : ℚ) := by exact_mod_cast (by omega : rtt - low ≤ rtt' - low)
  split_ifs
  · exact le_refl 0
  exact mul_le_mul_of_nonneg_left (max_le_max_left _ (min_le_min_left _ (div_le_div_of_nonneg_right hle hspan))) (Nat.cast_nonneg _)

/-- A longer round trip never costs less. -/
theorem penalty_mono (hmin : 0 ≤ low) (hmax : low ≤ high) (h : Storable rtt) (h' : Storable rtt') (hle : rtt ≤ rtt') :
    CostParams.rttPenalty ⟨rx, ⟨weight, low, high⟩, quality⟩ rtt true ≤
      CostParams.rttPenalty ⟨rx, ⟨weight, low, high⟩, quality⟩ rtt' true := by
  rw [UInt16.le_iff_toNat_le, penalty_exact hmin hmax h, penalty_exact hmin hmax h']
  exact Nat.floor_mono (interpolated_mono hmax hle)

theorem penalty_absent (p : CostParams) (rtt : Duration) : p.rttPenalty rtt false = 0 := by
  unfold CostParams.rttPenalty
  simp

/-! ### A valid configuration -/

/-- A valid configuration orders its bounds. -/
theorem rtt_range {cfg : Config} (h : cfg.validate = none) :
    0 ≤ cfg.costEffective.rtt.min ∧ cfg.costEffective.rtt.min ≤ cfg.costEffective.rtt.max := by
  unfold Config.validate at h
  simp only [Option.or_eq_none_iff] at h
  obtain ⟨-, -, h⟩ := h
  split_ifs at h with hrange
  exact ⟨not_lt.1 fun hneg => hrange (.inl hneg), not_lt.1 fun hneg => hrange (.inr hneg)⟩

theorem exact_of_range (hmin : 0 ≤ p.rtt.min) (hmax : p.rtt.min ≤ p.rtt.max) : p.Exact := by
  obtain ⟨rx, ⟨weight, low, high⟩, quality⟩ := p
  refine ⟨fun rtt => product_fits hmin, fun rtt => penalty_exact hmin hmax, fun rtt => penalty_le,
    fun rtt rtt' => penalty_mono hmin hmax, fun st now cost cost' hle => ?_, fun st now rtt rtt' h h' hle => ?_,
    fun st now h h' received received' window hb hb' hle => ?_, fun st now halive hcost hihu => ?_,
    fun h cost received window hquality hcost hb hreceived => ?_⟩
  · exact linkCost_le rfl rfl rfl (linkQualityCost_le hle) (UInt16.le_refl _)
  · refine linkCost_le rfl rfl rfl (UInt16.le_refl _) ?_
    dsimp only
    cases st.haveRTT with
    | false => rw [penalty_absent, penalty_absent]; exact UInt16.le_refl _
    | true => exact penalty_mono hmin hmax h h' hle
  · exact linkCost_le rfl rfl rfl (linkQualityCost_hellos hb hb' hle _) (UInt16.le_refl _)
  · unfold NeighborState.linkCost
    rw [if_neg (by simp [halive, hcost, hihu]), toNat_saturatingAdd]
  · unfold CostParams.linkQualityCost
    rw [if_neg hcost, hb]
    obtain rfl : quality = .etx := hquality
    dsimp only
    rw [if_neg hreceived, toNat_scaleCost]

/-! ### What is measured and averaged -/

/-- A measured round trip fits. -/
theorem storable_roundTrip (h : NeighborState.roundTrip ihu helloTS now = some rtt) : Storable rtt := by
  unfold NeighborState.roundTrip at h
  split at h
  · cases h
  · dsimp only at h
    split_ifs at h with hvalid
    obtain ⟨-, hout, hback, hpos⟩ := hvalid
    simp only [validTimestampGap, Bool.decide_and, Bool.and_eq_true, decide_eq_true_eq] at hout hback
    obtain rfl := Option.some.inj h
    exact ⟨hpos, (sub_le_self _ hback.1).trans hout.2⟩

/-- An average of two round trips lies between them. -/
theorem average_between (m rtt : Int) : min m rtt ≤ (836 * m + 164 * rtt) / 1000 ∧ (836 * m + 164 * rtt) / 1000 ≤ max m rtt := by
  omega

/-- An IHU that measures no round trip leaves the average. -/
theorem hearIHU_unmeasured (h : st.hearIHU ihu helloTS now = some st') (hround : NeighborState.roundTrip ihu helloTS now = none) :
    st'.measuredRTT = st.measuredRTT ∧ st'.haveRTT = st.haveRTT := by
  unfold NeighborState.hearIHU at h
  rw [hround] at h
  split_ifs at h
  obtain rfl := Option.some.inj h
  exact ⟨rfl, rfl⟩

/-- An IHU that measures one moves the average towards it, or starts with it. -/
theorem hearIHU_measured (h : st.hearIHU ihu helloTS now = some st') (hround : NeighborState.roundTrip ihu helloTS now = some rtt) :
    st'.measuredRTT = if st.haveRTT then (836 * st.measuredRTT + 164 * rtt) / 1000 else rtt := by
  unfold NeighborState.hearIHU at h
  rw [hround] at h
  split_ifs at h
  obtain rfl := Option.some.inj h
  rfl

theorem sweep_rtt (st : NeighborState) (now : Time) : (st.sweep now).measuredRTT = st.measuredRTT ∧
    ((st.sweep now).haveRTT = true → st.haveRTT = true) := by
  obtain ⟨haverage, hhave⟩ := (OpAux.keeps_missHellos now historyDepth st).rtt
  unfold NeighborState.sweep
  dsimp only
  generalize NeighborState.missHellos now historyDepth st = st1 at haverage hhave ⊢
  rw [← haverage, ← hhave]
  split_ifs <;> exact ⟨rfl, fun h => by first | exact h | cases h⟩

/-- What is said of an average is said of its value. -/
theorem Averages.congr (h : st.Averages samples) (haverage : st'.measuredRTT = st.measuredRTT) : st'.Averages samples := by
  obtain ⟨hall, hleast, hgreatest⟩ := h
  exact ⟨hall, haverage ▸ hleast, haverage ▸ hgreatest⟩

/-- An average within samples that can be stored can be stored. -/
theorem Averages.storable_average (h : st.Averages samples) : Storable st.measuredRTT := by
  obtain ⟨lo, hlo, hle⟩ := h.least
  obtain ⟨hi, hhi, hge⟩ := h.greatest
  exact ⟨lt_of_lt_of_le (h.storable lo hlo).1 hle, hge.trans (h.storable hi hhi).2⟩

/-- The average of a link lies within its samples. -/
theorem averages_of_measured (h : st.Measured samples) (hrtt : st.haveRTT = true) : st.Averages samples := by
  induction h with
  | fresh => cases hrtt
  | hello h heard ih =>
    obtain ⟨haverage, hhave⟩ := (HearAux.hearHello_keeps heard).rtt
    exact Averages.congr (ih (hhave ▸ hrtt)) haverage
  | @sweep st samples h now ih =>
    obtain ⟨haverage, hkept⟩ := sweep_rtt st now
    exact Averages.congr (ih (hkept hrtt)) haverage
  | rest h addr sent seqno dumped owed advertised ih => exact Averages.congr (ih hrtt) rfl
  | @heard st st' samples ihu helloTS now h heard ih =>
    unfold NeighborState.resample
    cases hround : NeighborState.roundTrip ihu helloTS now with
    | none =>
      obtain ⟨haverage, hhave⟩ := hearIHU_unmeasured heard hround
      exact Averages.congr (ih (hhave ▸ hrtt)) haverage
    | some rtt =>
      have haverage := hearIHU_measured heard hround
      have hstorable := storable_roundTrip hround
      cases hhave : st.haveRTT with
      | false =>
        rw [hhave] at haverage
        exact ⟨List.forall_mem_singleton.2 hstorable, ⟨rtt, List.mem_singleton_self rtt, haverage.ge⟩,
          ⟨rtt, List.mem_singleton_self rtt, haverage.le⟩⟩
      | true =>
        -- the average moves towards the new sample, so it stays within the old ones and this one
        rw [hhave] at haverage
        obtain ⟨hall, ⟨lo, hlo, hle⟩, ⟨hi, hhi, hge⟩⟩ := ih hhave
        obtain ⟨hbelow, habove⟩ := average_between st.measuredRTT rtt
        have hlast : rtt ∈ samples ++ [rtt] := List.mem_append_right _ (List.mem_singleton_self rtt)
        refine ⟨List.forall_mem_append.2 ⟨hall, List.forall_mem_singleton.2 hstorable⟩, ?_, ?_⟩
        · rcases min_le_iff.1 hbelow with hm | hm
          · exact ⟨lo, List.mem_append_left _ hlo, haverage ▸ hle.trans hm⟩
          · exact ⟨rtt, hlast, haverage ▸ hm⟩
        · rcases le_max_iff.1 habove with hm | hm
          · exact ⟨hi, List.mem_append_left _ hhi, haverage ▸ hm.trans hge⟩
          · exact ⟨rtt, hlast, haverage ▸ hm⟩

/-- Every link of a reachable speaker has a history. -/
theorem measured_reachable {s : Speaker} {sent : List ReservedPacket} (h : Reachable s sent) (n : NeighborRef) :
    ∃ samples, (s.heap n).Measured samples := by
  refine h.neighbor_invariant (P := fun st => ∃ samples, st.Measured samples) (fun peer => ⟨[], .fresh peer⟩) ?_ n
  · rintro now st st' hwrite ⟨samples, hm⟩
    cases hwrite with
    | hello heard => exact ⟨samples, .hello hm heard⟩
    | ihu heard => exact ⟨_, .heard hm heard⟩
    | sweep => exact ⟨samples, .sweep hm now⟩
    | rest h =>
      rw [h]
      exact ⟨samples, .rest hm _ _ _ _ _ _⟩

end CostAux

open CostAux

/-- Under every valid configuration the costs of a link are exact, ordered and cut off at infinity, for every round trip that can be
stored. Whatever a link heard, its average lies within the samples it is of, each of which can be stored, and so can be stored itself;
and every link of a reachable speaker has such a history. -/
theorem link_cost_exact {cfg : Config} (hvalid : cfg.validate = none) : cfg.costEffective.Exact ∧
    (∀ (st : NeighborState) (samples : List Duration), st.Measured samples → st.haveRTT = true →
      st.Averages samples ∧ Storable st.measuredRTT) ∧
    ∀ {s : Speaker} {sent : List ReservedPacket}, Reachable s sent → ∀ n, ∃ samples, (s.heap n).Measured samples ∧
      ((s.heap n).haveRTT = true → (s.heap n).Averages samples ∧ Storable (s.heap n).measuredRTT) := by
  obtain ⟨hmin, hmax⟩ := rtt_range hvalid
  have haverages : ∀ (st : NeighborState) (samples : List Duration), st.Measured samples → st.haveRTT = true →
      st.Averages samples ∧ Storable st.measuredRTT := by
    intro st samples hm hrtt
    have h := averages_of_measured hm hrtt
    exact ⟨h, Averages.storable_average h⟩
  refine ⟨exact_of_range hmin hmax, haverages, fun {s sent} hs n => ?_⟩
  obtain ⟨samples, hm⟩ := measured_reachable hs n
  exact ⟨samples, hm, haverages _ samples hm⟩

/-- An IHU heard at one second whose round trip took the given microseconds. -/
def ihuAfter (micros : UInt32) : IHU := { rxCost := 96, interval := 1200, originTS := 1000000 - micros, receiveTS := 5, hasTS := true }

/-- After a round trip of one millisecond and one of two the average is 1.164 ms. -/
theorem link_cost_exact_default : ({} : Config).validate = none ∧ ({} : Config).costEffective.Exact ∧
    ∃ st : NeighborState, st.Measured [1000000, 2000000] ∧ st.haveRTT = true ∧ st.measuredRTT = 1164000 ∧
      st.Averages [1000000, 2000000] := by
  obtain ⟨hexact, haverages, -⟩ := @link_cost_exact {} (by decide)
  let fresh : NeighborState := { peer := ⟨1, "a"⟩ }
  let first : NeighborState := (fresh.hearIHU (ihuAfter 1000) (some 5) second).get rfl
  let last : NeighborState := (first.hearIHU (ihuAfter 2000) (some 5) second).get rfl
  have hfirst : fresh.hearIHU (ihuAfter 1000) (some 5) second = some first := rfl
  have hlast : first.hearIHU (ihuAfter 2000) (some 5) second = some last := rfl
  have hm : last.Measured [1000000, 2000000] := NeighborState.Measured.heard (.heard (.fresh ⟨1, "a"⟩) hfirst) hlast
  exact ⟨by decide, hexact, last, hm, rfl, rfl, (haverages last _ hm rfl).1⟩

end RanetLite.Babel
