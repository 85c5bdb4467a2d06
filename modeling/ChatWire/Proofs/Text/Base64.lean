import ChatWire.Text.Base64

/-!
# Reading base64 that was written

Bytes come back from their written form (`Base64.decodeText?_encodeText`).
-/

namespace ChatWire.Base64

theorem value?_digit {n : Nat} (h : n < 64) : value? (digit n) = some n := by
  have all : ∀ n : Fin 64, value? (digit n) = some n.val := by decide
  exact all ⟨n, h⟩

section Groups

variable {a b c d : Char} {p q r s : Nat}

theorem ne_pad_of_value? (h : value? a = some p) : a ≠ '=' := by
  rintro rfl
  have hpad : value? '=' = none := by decide
  rw [hpad] at h
  cases h

/-- Two characters and the padding for two more are one byte. -/
theorem decode?_one (ha : value? a = some p) (hb : value? b = some q) {x : UInt8}
    (hx : p * 64 + q = x.toNat * 16) : decode? [a, b, '=', '='] = some [x] := by
  have hlast : (p * 64 + q) % 16 = 0 := by omega
  have hfirst : (p * 64 + q) / 16 = x.toNat := by omega
  simp only [decode?, ha, hb, Option.bind_eq_bind, Option.bind_some]
  rw [if_pos hlast, hfirst, UInt8.ofNat_toNat]

/-- Three characters and the padding for one more are two bytes. -/
theorem decode?_two (ha : value? a = some p) (hb : value? b = some q) (hc : value? c = some r)
    {x y : UInt8} (hxy : p * 4096 + q * 64 + r = (x.toNat * 256 + y.toNat) * 4) :
    decode? [a, b, c, '='] = some [x, y] := by
  have hy : y.toNat < 256 := y.toNat_lt
  have hlast : (p * 4096 + q * 64 + r) % 4 = 0 := by omega
  have hfirst : (p * 4096 + q * 64 + r) / 1024 = x.toNat := by omega
  have hsecond : (p * 4096 + q * 64 + r) / 4 % 256 = y.toNat := by omega
  rw [decode?]
  · simp only [ha, hb, hc, Option.bind_eq_bind, Option.bind_some]
    rw [if_pos hlast, hfirst, hsecond, UInt8.ofNat_toNat, UInt8.ofNat_toNat]
  · exact ne_pad_of_value? hc

/-- Four characters without padding are three bytes, in front of those of the rest. -/
theorem decode?_three (ha : value? a = some p) (hb : value? b = some q) (hc : value? c = some r)
    (hd : value? d = some s) {x y z : UInt8}
    (hxyz : p * 262144 + q * 4096 + r * 64 + s = x.toNat * 65536 + y.toNat * 256 + z.toNat)
    {rest : List Char} {tail : Bytes} (hrest : decode? rest = some tail) :
    decode? (a :: b :: c :: d :: rest) = some (x :: y :: z :: tail) := by
  have hy : y.toNat < 256 := y.toNat_lt
  have hz : z.toNat < 256 := z.toNat_lt
  have hfirst : (p * 262144 + q * 4096 + r * 64 + s) / 65536 = x.toNat := by omega
  have hsecond : (p * 262144 + q * 4096 + r * 64 + s) / 256 % 256 = y.toNat := by omega
  have hthird : (p * 262144 + q * 4096 + r * 64 + s) % 256 = z.toNat := by omega
  have hpad := ne_pad_of_value? hd
  rw [decode?]
  · simp only [ha, hb, hc, hd, hrest, Option.bind_eq_bind, Option.bind_some]
    rw [hfirst, hsecond, hthird, UInt8.ofNat_toNat, UInt8.ofNat_toNat, UInt8.ofNat_toNat]
    rfl
  · exact fun _ h _ => hpad h
  · exact fun h _ => hpad h

end Groups

theorem decode?_encode (bytes : Bytes) : decode? (encode bytes) = some bytes := by
  fun_induction encode bytes with
  | case1 => rfl
  | case2 a n =>
    have ha : a.toNat < 256 := a.toNat_lt
    have hn : n = a.toNat := rfl
    clear_value n
    have hp : n / 4 < 64 := by omega
    have hq : n % 4 * 16 < 64 := by omega
    exact decode?_one (value?_digit hp) (value?_digit hq) (by omega)
  | case3 a b n =>
    have ha : a.toNat < 256 := a.toNat_lt
    have hb : b.toNat < 256 := b.toNat_lt
    have hn : n = a.toNat * 256 + b.toNat := rfl
    clear_value n
    have hp : n / 1024 < 64 := by omega
    have hq : n / 16 % 64 < 64 := by omega
    have hr : n % 16 * 4 < 64 := by omega
    exact decode?_two (value?_digit hp) (value?_digit hq) (value?_digit hr) (by omega)
  | case4 a b c rest n ih =>
    have ha : a.toNat < 256 := a.toNat_lt
    have hb : b.toNat < 256 := b.toNat_lt
    have hc : c.toNat < 256 := c.toNat_lt
    have hn : n = a.toNat * 65536 + b.toNat * 256 + c.toNat := rfl
    clear_value n
    have hp : n / 262144 < 64 := by omega
    have hq : n / 4096 % 64 < 64 := by omega
    have hr : n / 64 % 64 < 64 := by omega
    have hs : n % 64 < 64 := by omega
    exact decode?_three (value?_digit hp) (value?_digit hq) (value?_digit hr) (value?_digit hs)
      (by omega) ih

theorem decodeText?_encodeText (bytes : Bytes) : decodeText? (encodeText bytes) = some bytes := by
  rw [decodeText?, encodeText, String.toList_ofList, decode?_encode]

end ChatWire.Base64
