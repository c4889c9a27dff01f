import Dragomand.Base64

/-!
# The memory-pressure trigger

`watch_memory_pressure` up to its polling thread: which file it watches and
what it writes there. systemd hands the trigger over in base64, and
`base64_decode` reads it into a 32-bit buffer that it shifts and never
clears. `Buffered` is what the loop keeps: of the buffer only the low
`bits` bits count, and with the bytes pushed so far they are the groups
read so far. The bits that wrap away at the top have long been pushed.
-/

namespace Dragomand

def ALPHABET : List UInt8 :=
  "ABCDEFGHIJKLMNOPQRSTUVWXYZabcdefghijklmnopqrstuvwxyz0123456789+/".toList.map Char.toUInt8

/-- The variables of the loop. -/
structure Base64Buffer where
  out : List UInt8
  buffer : UInt32
  bits : UInt32
deriving DecidableEq, Repr

def Base64Buffer.init : Base64Buffer := ⟨[], 0, 0⟩

def Base64Buffer.push (s : Base64Buffer) (value : UInt32) : Base64Buffer :=
  let buffer := (s.buffer <<< 6) ||| value
  let bits := s.bits + 6
  if 8 ≤ bits then ⟨s.out ++ [(buffer >>> (bits - 8)).toUInt8], buffer, bits - 8⟩
  else ⟨s.out, buffer, bits⟩

/-- Padding and line ends are skipped wherever they stand. -/
def base64Skips (c : UInt8) : Bool :=
  c == '='.toUInt8 || c == '\n'.toUInt8

def base64Loop : List UInt8 → Base64Buffer → Option (List UInt8)
  | [], s => some s.out
  | c :: input, s =>
      if base64Skips c then base64Loop input s
      else
        match ALPHABET.findIdx? (· == c) with
        | none => none
        | some value => base64Loop input (s.push value.toUInt32)

/-- `base64_decode` of the bytes of its argument. -/
def base64Decode (input : List UInt8) : Option (List UInt8) :=
  base64Loop input .init

/-- PSI trigger: at least 150ms of "some" memory stall within 1s. -/
def defaultTrigger : List UInt8 :=
  "some 150000 1000000".toList.map Char.toUInt8

/-- The file to watch and the trigger to write to it, from the values of
`$MEMORY_PRESSURE_WATCH` and `$MEMORY_PRESSURE_WRITE`; `none` if watching
is turned off. -/
def watchMemoryPressure (watch write : Option String) : Option (String × List UInt8) :=
  match watch with
  | some path =>
      if path = "/dev/null" then none
      else some (path,
        (write.bind fun b64 => base64Decode b64.toByteArray.data.toList).getD defaultTrigger)
  | none => some ("/proc/pressure/memory", defaultTrigger)

/-! ## One group -/

theorem findIdx_digit : ∀ n < 64, ALPHABET.findIdx? (· == Base64.digit n) = some n := by
  decide +kernel

theorem base64Skips_digit : ∀ n < 64, base64Skips (Base64.digit n) = false := by
  decide +kernel

theorem findIdx_eq_none_iff {c : UInt8} :
    ALPHABET.findIdx? (· == c) = none ↔ c ∉ ALPHABET := by
  rw [List.findIdx?_eq_none_iff]
  constructor
  · intro h hmem
    exact absurd (h c hmem) (by simp)
  · intro h a hmem
    exact beq_eq_false_iff_ne.mpr fun heq => h (heq ▸ hmem)

/-- Shifting drops what no longer fits, and the new group lands in the
bits that came free. -/
theorem shift_or_toNat {buffer value : UInt32} (h : value.toNat < 64) :
    ((buffer <<< 6) ||| value).toNat = (buffer.toNat * 64 + value.toNat) % 2 ^ 32 := by
  have hshift : (buffer <<< 6).toNat = (buffer.toNat % 2 ^ 26) <<< 6 := by
    rw [UInt32.toNat_shiftLeft, show (6 : UInt32).toNat % 32 = 6 from rfl, Nat.shiftLeft_eq,
      Nat.shiftLeft_eq]
    omega
  rw [UInt32.toNat_or, hshift, ← Nat.shiftLeft_add_eq_or_of_lt h, Nat.shiftLeft_eq]
  omega

/-! ## The loop -/

/-- The bytes pushed and the low `bits` bits of the buffer are the groups
read so far. -/
structure Buffered (values : List Nat) (s : Base64Buffer) : Prop where
  short : s.bits.toNat < 8
  regroup : Base64.Regroup 6 8 values (s.out.map UInt8.toNat) s.bits.toNat
    (s.buffer.toNat % 2 ^ s.bits.toNat)

theorem buffered_init : Buffered [] .init := ⟨by decide, .nil⟩

/-- The low bits after a group is shifted in are those pending before and
the group, as long as they all fit. -/
theorem pending_push {bits buffer value : Nat} (hbits : bits + 6 ≤ 32) (hvalue : value < 64) :
    (buffer * 64 + value) % 2 ^ 32 % 2 ^ (bits + 6)
      = buffer % 2 ^ bits * 2 ^ 6 + value := by
  have hlow : (buffer * 64 + value) % 64 = value := by omega
  have hhigh : (buffer * 64 + value) / 64 = buffer := by omega
  rw [Nat.mod_mod_of_dvd _ (pow_dvd_pow 2 hbits), Nat.add_comm bits, pow_add, Nat.mod_mul,
    show 2 ^ 6 = 64 from rfl, hlow, hhigh]
  omega

/-- What `(buffer >> bits) as u8` takes off the pending bits. -/
theorem pending_emit (buffer bits : Nat) :
    buffer % 2 ^ (bits + 8) = buffer / 2 ^ bits % 2 ^ 8 * 2 ^ bits + buffer % 2 ^ bits := by
  rw [pow_add, Nat.mod_mul, Nat.add_comm, Nat.mul_comm]

theorem buffered_push {values : List Nat} {s : Base64Buffer} (h : Buffered values s)
    {value : UInt32} (hvalue : value.toNat < 64) :
    Buffered (values ++ [value.toNat]) (s.push value) := by
  obtain ⟨hshort, hregroup⟩ := h
  have hbits : (s.bits + 6).toNat = s.bits.toNat + 6 := by
    rw [UInt32.toNat_add, show (6 : UInt32).toNat = 6 from rfl]
    omega
  have hread := hregroup.push value.toNat
  rw [← pending_push (by omega) hvalue, ← shift_or_toNat hvalue] at hread
  unfold Base64Buffer.push
  dsimp only
  split
  · rename_i hfull
    have hsub : (s.bits + 6 - 8).toNat + 8 = s.bits.toNat + 6 := by
      rw [UInt32.toNat_sub_of_le _ _ hfull, hbits, show (8 : UInt32).toNat = 8 from rfl]
      have := UInt32.le_iff_toNat_le.mp hfull
      rw [hbits, show (8 : UInt32).toNat = 8 from rfl] at this
      omega
    have hrest : (s.bits + 6 - 8).toNat < 8 := by omega
    refine ⟨hrest, ?_⟩
    rw [← hsub, pending_emit] at hread
    have hbyte : (((s.buffer <<< 6) ||| value) >>> (s.bits + 6 - 8)).toUInt8.toNat
        = ((s.buffer <<< 6) ||| value).toNat / 2 ^ (s.bits + 6 - 8).toNat % 2 ^ 8 := by
      rw [UInt32.toNat_toUInt8, UInt32.toNat_shiftRight, Nat.shiftRight_eq_div_pow,
        Nat.mod_eq_of_lt (by omega : (s.bits + 6 - 8).toNat < 32)]
    rw [List.map_append, List.map_singleton, hbyte]
    exact hread.emit
  · rename_i hfull
    refine ⟨?_, by rw [hbits]; exact hread⟩
    have := mt UInt32.le_iff_toNat_le.mpr hfull
    rw [hbits, show (8 : UInt32).toNat = 8 from rfl] at this
    show (s.bits + 6).toNat < 8
    omega

theorem buffered_foldl (values : List Nat) (hvalues : ∀ v ∈ values, v < 64) :
    ∀ {earlier : List Nat} {s : Base64Buffer}, Buffered earlier s →
      Buffered (earlier ++ values) (values.foldl (fun s v => s.push v.toUInt32) s) := by
  induction values with
  | nil =>
      intro earlier s h
      rw [List.append_nil]
      exact h
  | cons v values ih =>
      intro earlier s h
      have hv := hvalues v List.mem_cons_self
      have hto : v.toUInt32.toNat = v := by
        rw [Nat.toUInt32_eq, UInt32.toNat_ofNat']
        exact Nat.mod_eq_of_lt (by omega)
      have hpush : Buffered (earlier ++ [v.toUInt32.toNat]) (s.push v.toUInt32) :=
        buffered_push h (by rw [hto]; exact hv)
      rw [hto] at hpush
      rw [List.foldl_cons, List.append_cons]
      exact ih (fun v' hv' => hvalues v' (List.mem_cons_of_mem _ hv')) hpush

/-- On the digits of `values`, wherever padding and line ends stand between
them, the loop pushes the values. -/
theorem base64Loop_digits : ∀ {input : List UInt8} {values : List Nat} {s : Base64Buffer},
    (∀ v ∈ values, v < 64) →
    input.filter (fun c => !base64Skips c) = values.map Base64.digit →
    base64Loop input s = some (values.foldl (fun s v => s.push v.toUInt32) s).out
  | [], values, s, _, h => by
      obtain rfl : values = [] := List.map_eq_nil_iff.mp h.symm
      rfl
  | c :: input, values, s, hvalues, h => by
      rw [base64Loop]
      cases hskip : base64Skips c with
      | true =>
          rw [List.filter_cons_of_neg (by simp [hskip])] at h
          exact base64Loop_digits hvalues h
      | false =>
          rw [List.filter_cons_of_pos (by simp [hskip])] at h
          obtain ⟨v, rest, rfl, rfl, hrest⟩ := List.map_eq_cons_iff.mp h.symm
          have hv := hvalues v List.mem_cons_self
          rw [findIdx_digit v hv]
          exact base64Loop_digits (fun v' hv' => hvalues v' (List.mem_cons_of_mem _ hv')) hrest.symm

/-- Neither a digit, nor padding, nor a line end. -/
def Base64Foreign (c : UInt8) : Prop :=
  c ∉ ALPHABET ∧ c ≠ '='.toUInt8 ∧ c ≠ '\n'.toUInt8

instance (c : UInt8) : Decidable (Base64Foreign c) :=
  inferInstanceAs (Decidable (_ ∧ _ ∧ _))

theorem base64Loop_eq_none_iff : ∀ {input : List UInt8} {s : Base64Buffer},
    base64Loop input s = none ↔ ∃ c ∈ input, Base64Foreign c
  | [], s => by simp [base64Loop]
  | c :: input, s => by
      have hcons : (∃ c' ∈ c :: input, Base64Foreign c')
          ↔ Base64Foreign c ∨ ∃ c' ∈ input, Base64Foreign c' := by
        simp only [List.mem_cons, or_and_right, exists_or, exists_eq_left]
      rw [base64Loop, hcons]
      split
      · rename_i hskip
        have hnot : ¬ Base64Foreign c := fun h => by
          simp [base64Skips, h.2.1, h.2.2] at hskip
        rw [base64Loop_eq_none_iff]
        exact (or_iff_right hnot).symm
      · rename_i hskip
        have hne : c ≠ '='.toUInt8 ∧ c ≠ '\n'.toUInt8 := by
          simpa [base64Skips] using hskip
        split
        · rename_i hfind
          exact iff_of_true rfl (Or.inl ⟨findIdx_eq_none_iff.mp hfind, hne⟩)
        · rename_i value hfind
          have hnot : ¬ Base64Foreign c := fun h => by
            rw [findIdx_eq_none_iff.mpr h.1] at hfind
            cases hfind
          rw [base64Loop_eq_none_iff]
          exact (or_iff_right hnot).symm

/-! ## The round trip -/

theorem base64Decode_encode (bytes : List UInt8) {input : List UInt8}
    (h : input.filter (fun c => !base64Skips c) = Base64.encode bytes) :
    base64Decode input = some bytes := by
  have hlt := Base64.sextets_lt bytes
  have hread := buffered_foldl (Base64.sextets bytes) hlt buffered_init
  rw [base64Decode, base64Loop_digits hlt h, Option.some_inj]
  refine (List.map_inj_right fun x y => UInt8.toNat_inj.mp).mp ?_
  refine hread.regroup.unique (Base64.sextets_regroup bytes) (by decide) hread.short
    (Base64.fill_lt bytes) (Nat.mod_lt _ (Nat.two_pow_pos _)) (Nat.two_pow_pos _) ?_ ?_
  all_goals
    intro d hd
    obtain ⟨x, -, rfl⟩ := List.mem_map.mp hd
    exact x.toNat_lt

/-- Without the line ends it is the encoding, with its padding or without. -/
def Base64Text (bytes input : List UInt8) : Prop :=
  input.filter (· ≠ '\n'.toUInt8) = Base64.encode bytes
    ∨ input.filter (· ≠ '\n'.toUInt8) = Base64.encode bytes ++ Base64.padding bytes

theorem filter_encode (bytes : List UInt8) :
    (Base64.encode bytes).filter (fun c => !base64Skips c) = Base64.encode bytes := by
  rw [List.filter_eq_self]
  intro c hc
  obtain ⟨d, hd, rfl⟩ := List.mem_map.mp hc
  rw [base64Skips_digit d (Base64.sextets_lt bytes d hd)]
  rfl

theorem filter_padding (bytes : List UInt8) :
    (Base64.padding bytes).filter (fun c => !base64Skips c) = [] := by
  rw [List.filter_eq_nil_iff]
  intro c hc
  rw [List.eq_of_mem_replicate hc]
  decide

theorem Base64Text.filter {bytes input : List UInt8} (h : Base64Text bytes input) :
    input.filter (fun c => !base64Skips c) = Base64.encode bytes := by
  have hlines : input.filter (fun c => !base64Skips c)
      = (input.filter (· ≠ '\n'.toUInt8)).filter (fun c => !base64Skips c) := by
    rw [List.filter_filter]
    refine List.filter_congr fun c _ => ?_
    by_cases hc : c = '\n'.toUInt8
    · simp [hc, base64Skips]
    · simp [hc]
  rw [hlines]
  rcases h with h | h
  · rw [h, filter_encode]
  · rw [h, List.filter_append, filter_encode, filter_padding, List.append_nil]

/-- `base64_decode` undoes base64 of any length, and refuses a text with a
byte from outside. -/
theorem base64Decode_inverts :
    (∀ bytes input, Base64Text bytes input → base64Decode input = some bytes)
      ∧ ∀ input, base64Decode input = none ↔ ∃ c ∈ input, Base64Foreign c :=
  ⟨fun bytes _ h => base64Decode_encode bytes h.filter, fun _ => base64Loop_eq_none_iff⟩

theorem base64Decode_inverts_trigger :
    base64Decode ("c29tZSAxNTAwMDAg\nMjAwMDAwMA==\n".toList.map Char.toUInt8)
        = some ("some 150000 2000000".toList.map Char.toUInt8)
      ∧ base64Decode ("c29t!".toList.map Char.toUInt8) = none :=
  ⟨base64Decode_inverts.1 _ _ (Or.inr (by decide +kernel)),
    (base64Decode_inverts.2 _).mpr ⟨'!'.toUInt8, by decide +kernel⟩⟩

/-- What systemd asks for is what is written, and the default stands in for
a text that is not base64. -/
theorem watchMemoryPressure_some {path : String} (hpath : path ≠ "/dev/null") (b64 : String) :
    (∀ trigger, Base64Text trigger b64.toByteArray.data.toList →
        watchMemoryPressure (some path) (some b64) = some (path, trigger))
      ∧ ((∃ c ∈ b64.toByteArray.data.toList, Base64Foreign c) →
        watchMemoryPressure (some path) (some b64) = some (path, defaultTrigger)) := by
  constructor
  · intro trigger h
    simp [watchMemoryPressure, hpath, base64Decode_encode trigger h.filter]
  · intro h
    have hnone : base64Decode b64.toByteArray.data.toList = none := base64Loop_eq_none_iff.mpr h
    simp [watchMemoryPressure, hpath, hnone]

end Dragomand
