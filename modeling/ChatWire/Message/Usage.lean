/-!
# Token usage

The token counts that a provider reports for one exchange. Counts are 64-bit words.

* `TokenUsage.totalInput` saturates, `TokenUsage.merge` keeps a known figure when the later report
  says zero.
-/

namespace ChatWire

/-- The sum of two counts, or the greatest count where the sum is too large. -/
def saturatingAdd (a b : UInt64) : UInt64 := if a + b < a then .ofNat (UInt64.size - 1) else a + b

/-- The difference of two counts, or zero where the second is greater. -/
def saturatingSub (a b : UInt64) : UInt64 := if b ≤ a then a - b else 0

/-- Cache counts reported with a reply. -/
structure CacheUsage where
  /-- Input tokens that were put into the cache. -/
  created : UInt64
  /-- Input tokens that were read from the cache. -/
  read : UInt64
deriving DecidableEq

/-- Token counts of one exchange. -/
structure TokenUsage where
  /-- Input tokens that did not come from the cache. -/
  input : UInt64 := 0
  /-- Output tokens. -/
  output : UInt64 := 0
  /-- Input tokens that were put into the cache. -/
  cacheCreated : UInt64 := 0
  /-- Input tokens that were read from the cache. -/
  cacheRead : UInt64 := 0
deriving DecidableEq

namespace TokenUsage

/-- All input tokens, cached ones included. -/
def totalInput (u : TokenUsage) : UInt64 :=
  saturatingAdd (saturatingAdd u.input u.cacheCreated) u.cacheRead

/-- The later of two counts, unless it is zero. -/
def later (earlier later : UInt64) : UInt64 := if 0 < later then later else earlier

/-- Folds a later report into an earlier one, count by count. -/
def merge (u v : TokenUsage) : TokenUsage where
  input := later u.input v.input
  output := later u.output v.output
  cacheCreated := later u.cacheCreated v.cacheCreated
  cacheRead := later u.cacheRead v.cacheRead

/-- The cache counts alone. -/
def cache (u : TokenUsage) : CacheUsage := ⟨u.cacheCreated, u.cacheRead⟩

end TokenUsage

end ChatWire
