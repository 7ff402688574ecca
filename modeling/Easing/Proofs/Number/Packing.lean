import Easing.Proofs.Number.Rounding

/-! # Doubles and their unpacked forms

A double is the packed form of its unpacked form, and a canonical unpacked form
whose exponent is not too large comes back from being packed. So two doubles are
equal as soon as they stand for the same significand and exponent.
-/

namespace Easing.Binary64

open Float.Model Float.Model.UnpackedFloat

theorem toNat_packComponents (sign : Sign) (exponent : BitVec 11) (fraction : BitVec 52) :
    (packComponents Format.binary64 sign exponent fraction).toNat =
      sign.toBitVec.toNat * 2 ^ 63 + exponent.toNat * 2 ^ 52 + fraction.toNat := by
  have happend {j k : ℕ} (x : BitVec j) (y : BitVec k) :
      (x ++ y).toNat = x.toNat * 2 ^ k + y.toNat := by
    rw [BitVec.toNat_append, ← Nat.shiftLeft_add_eq_or_of_lt y.isLt, Nat.shiftLeft_eq]
  change (sign.toBitVec ++ exponent ++ fraction : BitVec (1 + 11 + 52)).toNat = _
  rw [happend, happend]
  ring

theorem unpackSign_packComponents (sign : Sign) (exponent : BitVec 11) (fraction : BitVec 52) :
    @unpackSign Format.binary64 (packComponents Format.binary64 sign exponent fraction) =
      sign.toBitVec := by
  have he := exponent.isLt
  have hf := fraction.isLt
  apply BitVec.eq_of_toNat_eq
  rw [toNat_unpackSign, toNat_packComponents]
  omega

/-- The three fields of a packed double are all there is. -/
theorem packComponents_unpack (bits : BitVec 64) :
    packComponents Format.binary64 (Sign.ofBitVec (@unpackSign Format.binary64 bits))
      (@unpackExponent Format.binary64 bits) (@unpackMantissa Format.binary64 bits) = bits := by
  have hlt := bits.isLt
  apply BitVec.eq_of_toNat_eq
  rw [toNat_packComponents, toBitVec_ofBitVec, toNat_unpackSign, toNat_unpackExponent,
    toNat_unpackMantissa, hiddenBit, Nat.shiftRight_eq_div_pow]
  omega

theorem pack_finite (s : Sign) {m : ℕ} {e : ℤ} (h : 0 < m) :
    UnpackedFloat.pack Format.binary64 (.finite s m e h) =
      if 2047 ≤ (e + 1075).toNat then packedInfinity Format.binary64 s
      else if m.log2 = 52 then
        packComponents Format.binary64 s (BitVec.ofNat 11 (e + 1075).toNat) (BitVec.ofNat 52 m)
      else packComponents Format.binary64 s 0#11 (BitVec.ofNat 52 m) := by
  have hbias : e + (Format.binary64.exponentBias : ℕ) + (52 : ℕ) = e + 1075 := by
    rw [show Format.binary64.exponentBias = 1023 by decide]
    push_cast
    ring
  have hmax : 2 ^ 11 ≤ (e + 1075).toNat + 1 ↔ 2047 ≤ (e + 1075).toNat := by omega
  have hlog : m.log2 + 1 = Format.binary64.mantissaBits ↔ m.log2 = 52 := by
    rw [show Format.binary64.mantissaBits = 53 by decide]
    omega
  simp only [UnpackedFloat.pack, hbias, hmax, hlog]

/-- A subnormal double is packed with the exponent field zero. -/
theorem pack_subnormal (s : Sign) {fraction : BitVec 52} {e : ℤ} (he : e = -1074)
    (h : 0 < fraction.toNat) :
    UnpackedFloat.pack Format.binary64 (.finite s fraction.toNat e h) =
      packComponents Format.binary64 s 0#11 fraction := by
  have hlog := (Nat.log2_lt h.ne').mpr fraction.isLt
  rw [pack_finite, he, if_neg (by decide), if_neg hlog.ne, BitVec.ofNat_toNat, BitVec.setWidth_eq]

/-- A normal double is packed without its hidden bit. -/
theorem pack_normal (s : Sign) {exponent : BitVec 11} {fraction : BitVec 52} {e : ℤ}
    (he : e = exponent.toNat - 1075) (hmax : exponent.toNat ≠ 2047)
    (h : 0 < (1#1 ++ fraction).toNat) :
    UnpackedFloat.pack Format.binary64 (.finite s (1#1 ++ fraction).toNat e h) =
      packComponents Format.binary64 s exponent fraction := by
  have hlt := exponent.isLt
  have hexp : (e + 1075).toNat = exponent.toNat := by omega
  have hlog : (1#1 ++ fraction).toNat.log2 = 52 := by
    have hfraction := fraction.isLt
    rw [Nat.log2_eq_iff h.ne', toNat_hiddenBit_append, hiddenBit]
    omega
  have hdrop : BitVec.ofNat 52 (1#1 ++ fraction).toNat = fraction := by
    have hfraction := fraction.isLt
    apply BitVec.eq_of_toNat_eq
    rw [toNat_hiddenBit_append, BitVec.toNat_ofNat, hiddenBit]
    omega
  rw [pack_finite, hexp, if_neg (by omega), if_pos hlog, hdrop, BitVec.ofNat_toNat,
    BitVec.setWidth_eq]

/-- Packing the unpacked form gives the bits back, if they are those of a double. -/
theorem pack_unpack_bits {bits : BitVec 64} (hvalid : Format.binary64.Valid bits) :
    UnpackedFloat.pack Format.binary64 (UnpackedFloat.unpack Format.binary64 bits) = bits := by
  have hparts := packComponents_unpack bits
  have hnan := hvalid.eq_packedNaN
  have hbias : (Format.binary64.exponentBias : ℤ) + (52 : ℕ) = 1075 := by decide
  unfold UnpackedFloat.unpack
  simp only [BitVec.neg_one_eq_allOnes, hbias] at hnan ⊢
  generalize Sign.ofBitVec (@unpackSign Format.binary64 bits) = s at hparts ⊢
  -- Infinities, the undefined double, zeros, subnormal and normal doubles.
  split_ifs with hall hnone hzero hnone
  · rw [hall, hnone] at hparts
    exact hparts
  · exact (hnan hall hnone).symm
  · rw [hzero, hnone] at hparts
    exact hparts
  · rw [hzero] at hparts ⊢
    exact (pack_subnormal s (by decide) _).trans hparts
  · exact (pack_normal s rfl (fun h => hall (BitVec.eq_of_toNat_eq h)) _).trans hparts

/-- A double is the packed form of its unpacked form. -/
theorem pack_unpack (x : Float.Model) : Float.Model.pack x.unpack = x := by
  obtain ⟨bits, hvalid⟩ := x
  simp only [Float.Model.pack, Float.Model.unpack, pack_unpack_bits hvalid]

/-! ## Canonical forms -/

/-- A number with the exponent field zero is read without a hidden bit. -/
theorem unpack_subnormal (s : Sign) {fraction : BitVec 52} (h : 0 < fraction.toNat) :
    UnpackedFloat.unpack Format.binary64 (packComponents Format.binary64 s 0#11 fraction) =
      .finite s fraction.toNat (-1074) h := by
  have hne : fraction ≠ 0#52 := by
    rintro rfl
    exact h.ne' rfl
  unfold UnpackedFloat.unpack
  simp only [unpackExponent_packComponents, unpackMantissa_packComponents,
    unpackSign_packComponents, ofBitVec_toBitVec, dif_neg hne]
  rfl

theorem toNat_hiddenBit_append_pos (fraction : BitVec 52) : 0 < (1#1 ++ fraction).toNat := by
  rw [toNat_hiddenBit_append, hiddenBit]
  omega

/-- Other finite numbers are read with the hidden bit. -/
theorem unpack_normal (s : Sign) {exponent : BitVec 11} (fraction : BitVec 52)
    (hmax : exponent.toNat ≠ 2047) (hmin : exponent.toNat ≠ 0) :
    UnpackedFloat.unpack Format.binary64 (packComponents Format.binary64 s exponent fraction) =
      .finite s (1#1 ++ fraction).toNat (exponent.toNat - 1075)
        (toNat_hiddenBit_append_pos fraction) := by
  have hbias : (Format.binary64.exponentBias : ℤ) + (52 : ℕ) = 1075 := by decide
  have hmax' : exponent ≠ -1#11 := by
    rintro rfl
    exact hmax rfl
  have hmin' : exponent ≠ 0#11 := by
    rintro rfl
    exact hmin rfl
  unfold UnpackedFloat.unpack
  simp only [unpackExponent_packComponents, unpackMantissa_packComponents,
    unpackSign_packComponents, ofBitVec_toBitVec, hbias, if_neg hmax', if_neg hmin']

variable {m : ℕ} {e : ℤ}

/-- A canonical form is made of the fields of a subnormal or of a normal number. -/
theorem Canonical.fields (hc : Canonical m e) (he : e ≤ 971) :
    (∃ fraction : BitVec 52, m = fraction.toNat ∧ e = -1074) ∨
      ∃ (exponent : BitVec 11) (fraction : BitVec 52), m = (1#1 ++ fraction).toNat ∧
        e = exponent.toNat - 1075 ∧ exponent.toNat ≠ 2047 ∧ exponent.toNat ≠ 0 := by
  have hleast := hc.least
  have hlt := hc.lt
  by_cases hsmall : m < 2 ^ 52
  · refine .inl ⟨.ofNat 52 m, ?_, ?_⟩
    · rw [BitVec.toNat_ofNat, Nat.mod_eq_of_lt hsmall]
    · by_contra hne
      exact hsmall.not_ge (hc.normal (lt_of_le_of_ne hleast (Ne.symm hne)))
  · have hexponent : (BitVec.ofNat 11 (e + 1075).toNat).toNat = (e + 1075).toNat := by
      rw [BitVec.toNat_ofNat, Nat.mod_eq_of_lt (by omega)]
    refine .inr ⟨.ofNat 11 (e + 1075).toNat, .ofNat 52 (m - 2 ^ 52), ?_, ?_⟩
    · rw [toNat_hiddenBit_append, BitVec.toNat_ofNat, hiddenBit]
      omega
    · rw [hexponent]
      omega

/-- A canonical form is found again. -/
theorem unpack_pack (hc : Canonical m e) (he : e ≤ 971) (s : Sign) :
    (Float.Model.pack (.finite s m e hc.pos)).unpack = .finite s m e hc.pos := by
  change UnpackedFloat.unpack Format.binary64 (UnpackedFloat.pack Format.binary64 _) = _
  rcases hc.fields he with ⟨fraction, rfl, rfl⟩ | ⟨exponent, fraction, rfl, rfl, hmax, hmin⟩
  · rw [pack_subnormal s rfl, unpack_subnormal s]
  · rw [pack_normal s rfl hmax, unpack_normal s fraction hmax hmin]

/-- The unpacked form of a double is canonical, and its exponent is not too large. -/
theorem canonical_of_unpack {x : Float.Model} {sign : Sign} {h : 0 < m}
    (hx : x.unpack = .finite sign m e h) : Canonical m e ∧ e ≤ 971 := by
  have hbias : (Format.binary64.exponentBias : ℤ) + (52 : ℕ) = 1075 := by decide
  have hones : ∀ b : BitVec 11, b ≠ -1#11 → b.toNat ≠ 2047 :=
    fun b hb heq => hb (BitVec.eq_of_toNat_eq heq)
  have hzeros : ∀ b : BitVec 11, b ≠ 0#11 → b.toNat ≠ 0 :=
    fun b hb heq => hb (BitVec.eq_of_toNat_eq heq)
  have hexponent : (@unpackExponent Format.binary64 x.toBits.toBitVec).toNat < 2048 := BitVec.isLt _
  have hfraction : (@unpackMantissa Format.binary64 x.toBits.toBitVec).toNat < 2 ^ 52 :=
    BitVec.isLt _
  unfold Float.Model.unpack UnpackedFloat.unpack at hx
  simp only [hbias] at hx
  split_ifs at hx with hall hnone hzero hnone
  · injection hx with _ hm he
    have he' : e = -1074 := by
      rw [← he, hzero]
      rfl
    exact ⟨⟨h, by omega, by omega, by omega⟩, by omega⟩
  · injection hx with _ hm he
    have hmax := hones _ hall
    have hmin := hzeros _ hzero
    rw [toNat_hiddenBit_append, hiddenBit] at hm
    exact ⟨⟨h, by omega, by omega, by omega⟩, by omega⟩

end Easing.Binary64
