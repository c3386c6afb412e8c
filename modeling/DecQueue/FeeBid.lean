import DecQueue.Numbers
import DecQueue.Utf16
import DecQueue.Client
import DecQueue.Kit.ComparisonSort

/-! # The fee bid (client/fee-strategy.ts, client/worker.ts)

A bid is a percentile of the recent fees, kept between a floor and a cap. The
percentile comes from the environment and is not checked: when it points
outside the list of fees, the element is missing, and a missing element passes
floor and cap as NaN. Of an entry that the RPC returns only the fee is kept. -/

namespace DecQueue.FeeBid
open Kit.ComparisonSort DecqueueCore Numbers Utf16 Client

/-! ### Configuration -/

structure RetryConfig where
  maxAttempts : JsNumber
  baseDelayMs : JsNumber
  jitterFactor : JsNumber
  backoffMultiplier : JsNumber

structure HybridFeeStrategyConfig where
  mode : FeeMode
  jitoBlockEngineUrl : JsString
  jitoTipLamports : JsNumber
  skipJitoTipOnLowPriorityRetry : Bool
  computeUnitLimit : JsNumber
  priorityFeePercentile : JsNumber
  minPriorityFeeMicroLamports : JsNumber
  maxPriorityFeeMicroLamports : JsNumber
  retry : RetryConfig

/-- The variables of the environment that the configuration is read from. -/
structure Environment where
  jitoBlockEngineUrl : Option JsString
  jitoTipLamports : Option JsString
  feeMode : Option JsString
  priorityFeePercentile : Option JsString
  maxSendAttempts : Option JsString

/-- `Number(value ?? fallback)`. -/
def numberOr (value : Option JsString) (fallback : Rat) : JsNumber :=
  match value with
  | some s => stringToNumber s
  | none => .finite fallback

example : numberOr (some (utf16 " -7.5e1\n")) 75 = .finite (-75) := by decide +kernel

example : numberOr (some (utf16 "75%")) 75 = .nan := by decide +kernel

def defaultHybridFeeConfig (env : Environment) : HybridFeeStrategyConfig where
  mode := .auto
  jitoBlockEngineUrl := env.jitoBlockEngineUrl.getD (utf16 "https://ny.mainnet.block-engine.jito.wtf")
  jitoTipLamports := numberOr env.jitoTipLamports 25000
  skipJitoTipOnLowPriorityRetry := true
  computeUnitLimit := .finite 80000
  priorityFeePercentile := .finite 75
  minPriorityFeeMicroLamports := .finite 1000
  maxPriorityFeeMicroLamports := .finite 5000000
  retry := ⟨.finite 4, .finite 800, .finite (1 / 5), .finite 2⟩

/-- Of the two settings only the mode is checked. -/
def readMode (feeMode : Option JsString) : FeeMode :=
  if feeMode = some (utf16 "standard") then .standard
  else if feeMode = some (utf16 "jito") then .jito
  else .auto

def buildFeeConfig (env : Environment) : HybridFeeStrategyConfig :=
  { defaultHybridFeeConfig env with
    mode := readMode env.feeMode
    priorityFeePercentile := numberOr env.priorityFeePercentile 75
    retry := ⟨numberOr env.maxSendAttempts 4, .finite 800, .finite (1 / 5), .finite 2⟩ }

/-! ### The bid -/

/-- `a - b`. -/
def compareFees (a b : JsNumber) : Int := sortSign (subtract a b)

/-- `f > 0`. -/
def isPositive (f : JsNumber) : Bool := lessThan (.finite 0) f

/-- An error of the RPC leaves the list empty. -/
def recentFees (S : Sorter JsNumber) : Except String (List JsNumber) → List JsNumber
  | .ok fees => S.sort compareFees (fees.filter isPositive)
  | .error _ => []

/-- The `idx` of the percentile among `count` fees. -/
def percentileIndex (priorityFeePercentile : JsNumber) (count : Nat) : JsNumber :=
  floor (multiply (multiply priorityFeePercentile (.finite (1 / 100))) (.finite (count - 1 : Nat)))

def getDynamicPriorityFee (S : Sorter JsNumber) (response : Except String (List JsNumber))
    (config : HybridFeeStrategyConfig) : JsNumber :=
  let fees := recentFees S response
  if fees.length = 0 then config.minPriorityFeeMicroLamports
  else
    let idx := percentileIndex config.priorityFeePercentile fees.length
    let percentileFee := (elementAt fees idx).getD .nan
    maximum config.minPriorityFeeMicroLamports (minimum config.maxPriorityFeeMicroLamports percentileFee)

/-! ### Sorting the fees -/

theorem isPositive_iff (f : JsNumber) :
    isPositive f = true ↔ f = .infinity false ∨ ∃ q, f = .finite q ∧ 0 < q := by
  cases f with
  | nan => simp [isPositive, lessThan]
  | infinity negative => simp [isPositive, lessThan]
  | finite q => simp [isPositive, lessThan]

theorem sortSign_lt (a b : Rat) : sortSign (.finite (a - b)) < 0 ↔ a < b := by
  simp only [sortSign, sub_neg, sub_pos]
  split
  next hlt => exact iff_of_true (by decide) hlt
  next hlt => split <;> exact iff_of_false (by decide) hlt

theorem sortSign_gt (a b : Rat) : 0 < sortSign (.finite (a - b)) ↔ b < a := by
  simp only [sortSign, sub_neg, sub_pos]
  split
  next hlt => exact iff_of_false (by decide) hlt.not_gt
  next =>
    split
    next hgt => exact iff_of_true (by decide) hgt
    next hgt => exact iff_of_false (by decide) hgt

def feeValue : JsNumber → WithTop Rat
  | .finite q => q
  | _ => ⊤

theorem consistent_compareFees {fees : List JsNumber} (h : ∀ f ∈ fees, isPositive f = true) :
    Consistent compareFees fees := by
  have hvalue : ∀ f ∈ fees, f = .infinity false ∨ ∃ q, f = .finite q ∧ 0 < q :=
    fun f hf => (isPositive_iff f).mp (h f hf)
  refine consistent_of_order feeValue (fun a ha b hb => ?_) fun a ha b hb => ?_
  · rcases hvalue a ha with rfl | ⟨a, rfl, _⟩ <;> rcases hvalue b hb with rfl | ⟨b, rfl, _⟩
    · exact iff_of_false (by decide) (lt_irrefl _)
    · exact iff_of_false (show ¬(1 : Int) < 0 by decide) not_top_lt
    · exact iff_of_true (show (-1 : Int) < 0 by decide) (WithTop.coe_lt_top a)
    · exact (sortSign_lt a b).trans WithTop.coe_lt_coe.symm
  · rcases hvalue a ha with rfl | ⟨a, rfl, _⟩ <;> rcases hvalue b hb with rfl | ⟨b, rfl, _⟩
    · exact iff_of_false (by decide) (lt_irrefl _)
    · exact iff_of_true (show 0 < (1 : Int) by decide) (WithTop.coe_lt_top b)
    · exact iff_of_false (show ¬0 < (-1 : Int) by decide) not_top_lt
    · exact (sortSign_gt a b).trans WithTop.coe_lt_coe.symm

def positiveCount : Except String (List JsNumber) → Nat
  | .ok fees => (fees.filter isPositive).length
  | .error _ => 0

theorem recentFees_perm (S : Sorter JsNumber) (fees : List JsNumber) :
    (recentFees S (.ok fees)).Perm (fees.filter isPositive) :=
  S.perm (consistent_compareFees fun _ hf => (List.mem_filter.mp hf).2)

theorem recentFees_length (S : Sorter JsNumber) (response : Except String (List JsNumber)) :
    (recentFees S response).length = positiveCount response := by
  cases response with
  | error message => rfl
  | ok fees => exact (recentFees_perm S fees).length_eq

theorem recentFees_positive (S : Sorter JsNumber) (response : Except String (List JsNumber)) :
    ∀ f ∈ recentFees S response, isPositive f = true := by
  cases response with
  | error message => exact List.forall_mem_nil _
  | ok fees =>
    intro f hf
    exact (List.mem_filter.mp ((recentFees_perm S fees).mem_iff.mp hf)).2

theorem ne_nan_of_positive {f : JsNumber} (h : isPositive f = true) : f ≠ .nan := by
  rintro rfl
  cases h

/-! ### The index -/

/-- The percentile points into a list of `count` fees, or the list is empty. -/
def PercentileFits (priorityFeePercentile : JsNumber) (count : Nat) : Prop :=
  count = 0 ∨
    match priorityFeePercentile with
    | .finite q => 0 ≤ q * (count - 1 : Nat) ∧ q * (count - 1 : Nat) < 100 * count
    | _ => False

/-- Every percentile of the documented range fits every list. -/
theorem percentileFits_of_range {q : Rat} (hlow : 0 ≤ q) (hhigh : q ≤ 100) (count : Nat) :
    PercentileFits (.finite q) count := by
  rcases Nat.eq_zero_or_pos count with hzero | hpos
  · exact .inl hzero
  have hlast : ((count - 1 : Nat) : Rat) < count := by
    exact_mod_cast Nat.sub_lt hpos Nat.one_pos
  have hnonneg : (0 : Rat) ≤ (count - 1 : Nat) := Nat.cast_nonneg _
  refine .inr ⟨mul_nonneg hlow hnonneg, ?_⟩
  calc q * (count - 1 : Nat) ≤ 100 * (count - 1 : Nat) := mul_le_mul_of_nonneg_right hhigh hnonneg
    _ < 100 * count := by linarith

theorem percentileIndex_isSome {fees : List JsNumber} (hne : fees.length ≠ 0) (p : JsNumber) :
    (elementAt fees (percentileIndex p fees.length)).isSome = true ↔ PercentileFits p fees.length := by
  have hcount : (0 : Rat) < 100 := by norm_num
  refine Iff.trans ?_ (or_iff_right hne).symm
  cases p with
  | nan => exact iff_of_false Bool.false_ne_true id
  | infinity negative =>
    refine iff_of_false ?_ id
    have hpercent : multiply (.infinity negative) (.finite (1 / 100)) =
        .infinity (negative != decide ((1 / 100 : Rat) < 0)) := if_neg (by norm_num)
    rw [percentileIndex, hpercent, multiply]
    split
    · exact Bool.false_ne_true
    · exact Bool.false_ne_true
  | finite q =>
    have hindex : percentileIndex (.finite q) fees.length =
        floor (.finite (q * (1 / 100) * (fees.length - 1 : Nat))) := rfl
    have hquotient : q * (1 / 100) * (fees.length - 1 : Nat) = q * (fees.length - 1 : Nat) / 100 := by
      ring
    rw [hindex, elementAt_floor, hquotient, le_div_iff₀ hcount, div_lt_iff₀ hcount, zero_mul,
      mul_comm (fees.length : Rat)]

/-! ### Within the bounds -/

structure WithinBounds (config : HybridFeeStrategyConfig) (fee : JsNumber) : Prop where
  number : fee ≠ .nan
  floor : atMost config.minPriorityFeeMicroLamports fee = true
  cap : atMost fee config.maxPriorityFeeMicroLamports = true

theorem withinBounds_floor (env : Environment) :
    WithinBounds (buildFeeConfig env) (buildFeeConfig env).minPriorityFeeMicroLamports := by
  have hbounds : (1000 : Rat) ≤ 5000000 := by norm_num
  exact ⟨JsNumber.noConfusion, (atMost_finite 1000 1000).mpr le_rfl, (atMost_finite 1000 5000000).mpr hbounds⟩

theorem withinBounds_clamp (env : Environment) {x : JsNumber} (hx : x ≠ .nan) :
    WithinBounds (buildFeeConfig env) (maximum (buildFeeConfig env).minPriorityFeeMicroLamports
      (minimum (buildFeeConfig env).maxPriorityFeeMicroLamports x)) := by
  have hbounds : (1000 : Rat) ≤ 5000000 := by norm_num
  obtain ⟨q, hq, hlow, hhigh⟩ := clamp_bounds hbounds hx
  have hclamp : maximum (buildFeeConfig env).minPriorityFeeMicroLamports
      (minimum (buildFeeConfig env).maxPriorityFeeMicroLamports x) = .finite q := hq
  rw [hclamp]
  exact ⟨JsNumber.noConfusion, (atMost_finite 1000 q).mpr hlow, (atMost_finite q 5000000).mpr hhigh⟩

section
variable (S : Sorter JsNumber) (env : Environment) (response : Except String (List JsNumber))

/-- The bid is the floor, or one of the fees between floor and cap. -/
theorem bid_cases
    (h : PercentileFits (buildFeeConfig env).priorityFeePercentile (positiveCount response)) :
    getDynamicPriorityFee S response (buildFeeConfig env) =
        (buildFeeConfig env).minPriorityFeeMicroLamports ∨
      ∃ fee ∈ recentFees S response, getDynamicPriorityFee S response (buildFeeConfig env) =
        maximum (buildFeeConfig env).minPriorityFeeMicroLamports
          (minimum (buildFeeConfig env).maxPriorityFeeMicroLamports fee) := by
  rw [← recentFees_length S response] at h
  unfold getDynamicPriorityFee
  by_cases hempty : (recentFees S response).length = 0
  · exact .inl (if_pos hempty)
  · obtain ⟨fee, hfee⟩ := Option.isSome_iff_exists.mp ((percentileIndex_isSome hempty _).mpr h)
    refine .inr ⟨fee, mem_of_elementAt hfee, ?_⟩
    simp only [if_neg hempty, hfee, Option.getD_some]

theorem bid_of_fits
    (h : PercentileFits (buildFeeConfig env).priorityFeePercentile (positiveCount response)) :
    WithinBounds (buildFeeConfig env) (getDynamicPriorityFee S response (buildFeeConfig env)) := by
  rcases bid_cases S env response h with hfloor | ⟨fee, hfee, hclamp⟩
  · rw [hfloor]
    exact withinBounds_floor env
  · rw [hclamp]
    exact withinBounds_clamp env (ne_nan_of_positive (recentFees_positive S response fee hfee))

/-- A missing element passes both bounds. -/
theorem bid_of_not_fits
    (h : ¬PercentileFits (buildFeeConfig env).priorityFeePercentile (positiveCount response)) :
    getDynamicPriorityFee S response (buildFeeConfig env) = .nan := by
  rw [← recentFees_length S response] at h
  have hne : (recentFees S response).length ≠ 0 := fun hzero => h (.inl hzero)
  have hmissing : elementAt (recentFees S response)
      (percentileIndex (buildFeeConfig env).priorityFeePercentile (recentFees S response).length) = none := by
    rw [← Option.not_isSome_iff_eq_none, percentileIndex_isSome hne]
    exact h
  unfold getDynamicPriorityFee
  simp only [if_neg hne, hmissing]
  exact clamp_nan _ _

/-- The bid is in bounds exactly when the percentile points into the positive fees. -/
theorem bid_in_bounds_iff :
    WithinBounds (buildFeeConfig env) (getDynamicPriorityFee S response (buildFeeConfig env)) ↔
      PercentileFits (numberOr env.priorityFeePercentile 75) (positiveCount response) := by
  constructor
  · intro h
    by_contra hfits
    exact h.number (bid_of_not_fits S env response hfits)
  · exact bid_of_fits S env response

end

/-! ### Whole fees -/

/-- The fees of the response are whole numbers, as the RPC's are. -/
def WholeFees : Except String (List JsNumber) → Prop
  | .ok fees => ∀ fee ∈ fees, ∃ n : Nat, fee = .finite n
  | .error _ => True

theorem recentFees_whole (S : Sorter JsNumber) {response : Except String (List JsNumber)}
    (h : WholeFees response) : ∀ fee ∈ recentFees S response, ∃ n : Nat, fee = .finite n := by
  cases response with
  | error message => exact List.forall_mem_nil _
  | ok fees =>
    intro fee hfee
    exact h fee (List.mem_of_mem_filter ((recentFees_perm S fees).mem_iff.mp hfee))

/-- A percentile of the documented range bids a whole number between floor and cap. -/
theorem bid_whole (S : Sorter JsNumber) {env : Environment} {response : Except String (List JsNumber)}
    {q : Rat} (hq : numberOr env.priorityFeePercentile 75 = .finite q) (hlow : 0 ≤ q) (hhigh : q ≤ 100)
    (hwhole : WholeFees response) :
    ∃ n : Nat, getDynamicPriorityFee S response (buildFeeConfig env) = .finite n ∧
      1000 ≤ n ∧ n ≤ 5000000 := by
  have hfits : PercentileFits (buildFeeConfig env).priorityFeePercentile (positiveCount response) := by
    show PercentileFits (numberOr env.priorityFeePercentile 75) _
    rw [hq]
    exact percentileFits_of_range hlow hhigh _
  rcases bid_cases S env response hfits with hfloor | ⟨fee, hfee, hclamp⟩
  · exact ⟨1000, hfloor, le_rfl, by norm_num⟩
  · obtain ⟨n, rfl⟩ := recentFees_whole S hwhole fee hfee
    have hbid : maximum (.finite 1000) (minimum (.finite 5000000) (.finite n)) =
        .finite (max 1000 (min 5000000 n) : Nat) := by
      rw [minimum_finite, maximum_finite]
      norm_cast
    refine ⟨max 1000 (min 5000000 n), hclamp.trans hbid, le_max_left _ _, ?_⟩
    exact max_le (by norm_num) (min_le_left _ _)

/-! ### A percentile of 150 -/

def highEnvironment : Environment := ⟨none, none, none, some (utf16 "150"), none⟩

def threeFees : Except String (List JsNumber) := .ok [.finite 3000, .finite 1000, .finite 2000]

/-- Three fees, and the percentile asks for a fourth. -/
theorem high_percentile :
    getDynamicPriorityFee (mergeSorter JsNumber) threeFees (buildFeeConfig highEnvironment) = .nan ∧
      ¬WithinBounds (buildFeeConfig highEnvironment)
        (getDynamicPriorityFee (mergeSorter JsNumber) threeFees (buildFeeConfig highEnvironment)) := by
  have hpercentile : (buildFeeConfig highEnvironment).priorityFeePercentile = .finite 150 := by
    decide +kernel
  have hcount : positiveCount threeFees = 3 := by decide +kernel
  have hnan : getDynamicPriorityFee (mergeSorter JsNumber) threeFees (buildFeeConfig highEnvironment) =
      .nan := by
    refine bid_of_not_fits _ _ _ ?_
    rw [hpercentile, hcount]
    rintro (hzero | ⟨_, hlt⟩)
    · cases hzero
    · norm_num at hlt
  exact ⟨hnan, fun h => h.number hnan⟩

end DecQueue.FeeBid
