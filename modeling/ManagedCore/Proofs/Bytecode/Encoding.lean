import ManagedCore.Bytecode.Decode

/-!
# Encoded instructions

The bytes of one instruction: an opcode and its operands, most of them in one fixed form. Reading
takes such bytes off the front, whatever follows, and it takes nothing else.
-/

namespace ManagedCore

open Bytecode Opcode List

theorem Except.bind_ok_iff {ε α β : Type} {x : Except ε α} {f : α → Except ε β} {b : β} :
    (x >>= f) = .ok b ↔ ∃ a, x = .ok a ∧ f a = .ok b := by
  cases x with
  | error e => exact ⟨nofun, nofun⟩
  | ok a => exact ⟨fun h => ⟨a, rfl, h⟩, fun ⟨_, ha, h⟩ => by cases ha; exact h⟩

theorem Except.mapError_ok {ε ε' α : Type} {x : Except ε α} {f : ε → ε'} {a : α}
    (h : x.mapError f = .ok a) : x = .ok a := by
  cases x with
  | error e => cases h
  | ok b =>
    cases h
    rfl

namespace Bytecode

/-! ## The format -/

/-- Opcodes without operands. -/
def Bare (b : UInt8) : Prop :=
  b ≤ 0x0f ∨ 0x2e ≤ b ∧ b ≤ 0x35 ∨ 0x4f ≤ b ∧ b ≤ 0x83 ∨ 0x85 ≤ b ∧ b ≤ 0x98 ∨
    0xac ≤ b ∧ b ≤ 0xb1 ∨ b ∈ [0xbe, 0xbf, 0xc2, 0xc3]

instance (b : UInt8) : Decidable (Bare b) := inferInstanceAs (Decidable (_ ∨ _))

/-- Opcodes with the number of a local slot. -/
def slotOpcodes : List Opcode :=
  [.iload, .lload, .fload, .dload, .aload, .istore, .lstore, .fstore, .dstore, .astore, .ret]

/-- Opcodes with a two-byte index into the pool. -/
def poolOpcodes : List Opcode :=
  [.ldcW, .ldc2W, .getstatic, .putstatic, .getfield, .putfield, .invokevirtual, .invokespecial,
    .invokestatic, .new, .anewarray, .checkcast, .instanceof]

/-- Four bytes of a number. -/
inductive Long : List UInt8 → Int32 → Prop where
  | mk (w x y z : UInt8) : Long [w, x, y, z] (longWord w x y z).toInt32

/-- Four bytes of the distance to a target inside the body. -/
def Distance (c : Cursor) (bytes : List UInt8) (t : Nat) : Prop :=
  ∃ d, Long bytes d ∧ (t : Int) = c.pc + d.toInt ∧ t < c.size

def Pair (c : Cursor) (bytes : List UInt8) (p : Int32 × Nat) : Prop :=
  ∃ ks ws, Long ks p.1 ∧ Distance c ws p.2 ∧ bytes = ks ++ ws

inductive Each {α : Type} (P : List UInt8 → α → Prop) : List UInt8 → List α → Prop where
  | nil : Each P [] []
  | cons {ws bytes : List UInt8} {x : α} {xs : List α} : P ws x → Each P bytes xs →
      Each P (ws ++ bytes) (x :: xs)

/-- Any bytes up to the next multiple of four from the start of the body. -/
def Padding (c : Cursor) (bytes : List UInt8) : Prop :=
  bytes.length < 4 ∧ (c.pc + 1 + bytes.length) % 4 = 0

/-- The bytes at an offset are one instruction, with its generic opcode and its operands. -/
inductive Encodes (c : Cursor) : List UInt8 → Opcode → Operand → Prop where
  | bare {o : Opcode} : Bare o.toByte → Encodes c [o.toByte] o .none
  | short {o generic : Opcode} {first base : UInt8} :
      (first, base) ∈ [(0x1a, 0x15), (0x3b, 0x36)] → first ≤ o.toByte → o.toByte < first + 20 →
      generic.toByte = base + (o.toByte - first) / 4 →
      Encodes c [o.toByte] generic (.local ((o.toByte - first) % 4).toNat)
  | byte (b : UInt8) : Encodes c [bipush.toByte, b] .bipush (.int b.toInt8.toInt32)
  | word (hi lo : UInt8) :
      Encodes c [sipush.toByte, hi, lo] .sipush (.int (word hi lo).toInt16.toInt32)
  | elements (b : UInt8) :
      Encodes c [newarray.toByte, b] .newarray (.int (Int32.ofNat b.toNat))
  | constant (b : UInt8) : Encodes c [ldc.toByte, b] .ldc (.pool b.toNat)
  | pool {o : Opcode} (hi lo : UInt8) : o ∈ poolOpcodes →
      Encodes c [o.toByte, hi, lo] o (.pool (word hi lo).toNat)
  | slot {o : Opcode} (b : UInt8) : o ∈ slotOpcodes → Encodes c [o.toByte, b] o (.local b.toNat)
  | wideSlot {o : Opcode} (hi lo : UInt8) : o ∈ slotOpcodes →
      Encodes c [Opcode.wide.toByte, o.toByte, hi, lo] o (.local (word hi lo).toNat)
  | increment (slot delta : UInt8) : Encodes c [iinc.toByte, slot, delta] .iinc
      (.increment slot.toNat delta.toInt8.toInt32)
  | wideIncrement (w x y z : UInt8) :
      Encodes c [Opcode.wide.toByte, iinc.toByte, w, x, y, z] .iinc
        (.increment (word w x).toNat (word y z).toInt16.toInt32)
  | branch {o : Opcode} {t : Nat} (hi lo : UInt8) :
      o ∈ [.goto, .jsr] ∨ o.isConditional = true →
      (t : Int) = c.pc + (word hi lo).toInt16.toInt → t < c.size →
      Encodes c [o.toByte, hi, lo] o (.branch t)
  | farBranch {o generic : Opcode} {t : Nat} {ws : List UInt8} :
      (o, generic) ∈ [(.gotoW, .goto), (.jsrW, .jsr)] → Distance c ws t →
      Encodes c (o.toByte :: ws) generic (.branch t)
  | table {pad d l h bytes : List UInt8} {default : Nat} {low high : Int32} {ts : List Nat} :
      Padding c pad → Distance c d default → Long l low → Long h high → low ≤ high →
      Each (Distance c) bytes ts → (ts.length : Int) = high.toInt - low.toInt + 1 →
      Encodes c (tableswitch.toByte :: (pad ++ d ++ l ++ h ++ bytes)) .tableswitch
        (.table default low ts)
  | lookup {pad d n bytes : List UInt8} {default : Nat} {count : Int32}
      {ps : List (Int32 × Nat)} :
      Padding c pad → Distance c d default → Long n count → Each (Pair c) bytes ps →
      (ps.length : Int) = count.toInt →
      Encodes c (lookupswitch.toByte :: (pad ++ d ++ n ++ bytes)) .lookupswitch
        (.lookup default ps)
  | interface (hi lo count zero : UInt8) :
      Encodes c [invokeinterface.toByte, hi, lo, count, zero] .invokeinterface
        (.interface (word hi lo).toNat count.toNat)
  | multi (hi lo dims : UInt8) : dims ≠ 0 →
      Encodes c [multianewarray.toByte, hi, lo, dims] .multianewarray
        (.multi (word hi lo).toNat dims.toNat)

namespace Read

variable {α β : Type} {bytes rest : List UInt8} {e : DecodeError} {c : Cursor} {t : Nat}
  {ws : List UInt8} {P : List UInt8 → α → Prop}

theorem bind_ok_iff {x : Read α} {f : α → Read β} {b : β} : (x >>= f) bytes = .ok (b, rest) ↔
    ∃ a mid, x bytes = .ok (a, mid) ∧ f a mid = .ok (b, rest) := by
  refine Except.bind_ok_iff.trans ⟨fun ⟨p, hp, h⟩ => ⟨p.1, p.2, hp, h⟩, ?_⟩
  exact fun ⟨a, mid, hp, h⟩ => ⟨(a, mid), hp, h⟩

/-! ## Fields -/

/-- The reader takes bytes of a kind off the front, whatever follows, and no others. -/
def Takes (x : Read α) (P : List UInt8 → α → Prop) : Prop :=
  ∀ bytes a rest, x bytes = .ok (a, rest) ↔ ∃ ws, P ws a ∧ bytes = ws ++ rest

namespace Takes

variable {x : Read α} {f : α → Read β} {P Q : List UInt8 → α → Prop}

theorem read {a : α} (hx : Takes x P) (hws : P ws a) : x (ws ++ rest) = .ok (a, rest) :=
  (hx _ a rest).mpr ⟨ws, hws, rfl⟩

theorem of_iff (hx : Takes x P) (h : ∀ ws a, P ws a ↔ Q ws a) : Takes x Q := fun bytes a rest => by
  simp only [hx bytes a rest, h]

theorem bind {Q : α → List UInt8 → β → Prop} (hx : Takes x P) (hf : ∀ a, Takes (f a) (Q a)) :
    Takes (x >>= f) fun ws b => ∃ a us vs, P us a ∧ Q a vs b ∧ ws = us ++ vs := by
  intro bytes b rest
  rw [bind_ok_iff]
  constructor
  · rintro ⟨a, mid, ha, hb⟩
    obtain ⟨us, hus, rfl⟩ := (hx _ _ _).mp ha
    obtain ⟨vs, hvs, rfl⟩ := (hf a _ _ _).mp hb
    exact ⟨us ++ vs, ⟨a, us, vs, hus, hvs, rfl⟩, (append_assoc _ _ _).symm⟩
  · rintro ⟨_, ⟨a, us, vs, hus, hvs, rfl⟩, rfl⟩
    exact ⟨a, vs ++ rest, by rw [append_assoc, hx.read hus], (hf a).read hvs⟩

theorem lift (x : Except DecodeError α) :
    Takes (liftM x : Read α) fun ws a => x = .ok a ∧ ws = [] := by
  intro bytes b rest
  change Except.bind x (fun a => .ok (a, bytes)) = .ok (b, rest) ↔ _
  cases x with
  | error e => simp [Except.bind]
  | ok a => simp [Except.bind, and_assoc]

theorem pure (a : α) : Takes (pure a) fun ws b => a = b ∧ ws = [] := (lift (.ok a)).of_iff (by simp)

end Takes

theorem takes_u8 : Takes (u8 c) fun ws b => ws = [b] := by
  intro bytes b rest
  cases bytes <;> simp [u8]

theorem takes_u16 : Takes (u16 c) fun ws w => ∃ hi lo, w = word hi lo ∧ ws = [hi, lo] := by
  intro bytes w rest
  unfold u16
  split <;> grind

theorem takes_i32 : Takes (i32 c) Long := by
  intro bytes v rest
  constructor
  · intro h
    unfold i32 at h
    split at h <;> cases h
    exact ⟨_, .mk _ _ _ _, rfl⟩
  · rintro ⟨ws, ⟨w, x, y, z⟩, rfl⟩
    rfl

theorem takes_skip (n : Nat) : Takes (skip c n) fun ws _ => ws.length = n := by
  induction n with
  | zero => exact (Takes.pure ()).of_iff (by simp)
  | succ n ih => exact (takes_u8.bind fun _ => ih).of_iff fun ws _ => by cases ws <;> simp

theorem takes_padding : Takes (skip c (padding c)) fun ws _ => Padding c ws :=
  (takes_skip _).of_iff fun ws _ => by
    unfold padding Padding
    omega

theorem target_ok_iff {d : Int} : target c d = .ok t ↔ (t : Int) = c.pc + d ∧ t < c.size := by
  unfold target
  grind

theorem takes_nearTarget : Takes (nearTarget c) fun ws t =>
    ∃ hi lo, (t : Int) = c.pc + (word hi lo).toInt16.toInt ∧ t < c.size ∧ ws = [hi, lo] :=
  (takes_u16.bind fun _ => .lift _).of_iff fun ws t => by
    simp only [target_ok_iff]
    grind

theorem takes_farTarget : Takes (farTarget c) (Distance c) :=
  (takes_i32.bind fun _ => .lift _).of_iff fun ws t => by
    simp only [target_ok_iff, Distance]
    grind

/-- A reader that reads so many items, one after the other. -/
theorem takes_each {many : Nat → Read (List α)} {one : Read α}
    (hone : Takes one P) (hzero : many 0 = pure [])
    (hsucc : ∀ n, many (n + 1) = do return (← one) :: (← many n)) (n : Nat) :
    Takes (many n) fun ws xs => Each P ws xs ∧ xs.length = n := by
  induction n with
  | zero =>
    rw [hzero]
    refine (Takes.pure []).of_iff fun ws xs => ?_
    constructor
    · rintro ⟨rfl, rfl⟩
      exact ⟨.nil, rfl⟩
    · rintro ⟨hws, hlen⟩
      cases hws with
      | nil => exact ⟨rfl, rfl⟩
      | cons => cases hlen
  | succ n ih =>
    rw [hsucc]
    refine (hone.bind fun x => ih.bind fun xs => .pure _).of_iff fun ws xs => ?_
    constructor
    · rintro ⟨x, us, _, hus, ⟨xs, vs, _, ⟨hvs, rfl⟩, ⟨rfl, rfl⟩, rfl⟩, rfl⟩
      exact ⟨by simpa using hvs.cons hus, rfl⟩
    · rintro ⟨hws, hlen⟩
      cases hws with
      | nil => cases hlen
      | @cons us vs x xs hx hxs =>
        exact ⟨x, us, vs, hx, ⟨xs, vs, [], ⟨hxs, Nat.succ.inj hlen⟩, ⟨rfl, rfl⟩, by simp⟩, rfl⟩

theorem takes_targets (n : Nat) :
    Takes (targets c n) fun ws ts => Each (Distance c) ws ts ∧ ts.length = n :=
  takes_each takes_farTarget rfl (fun _ => rfl) n

theorem takes_pairs (n : Nat) :
    Takes (pairs c n) fun ws ps => Each (Pair c) ws ps ∧ ps.length = n := by
  have hpair : Takes (do return (← i32 c, ← farTarget c)) (Pair c) :=
    (takes_i32.bind fun key => takes_farTarget.bind fun t => .pure (key, t)).of_iff fun ws p => by
      unfold Pair
      grind
  refine takes_each hpair rfl (fun n => ?_) n
  simp [pairs]

/-! ## What is read is encoded -/

variable {op : Operation} {o generic : Opcode} {x : Operand} {chunk : List UInt8}
  {make : Nat → Operation} {default : Nat}

theorem eq_toByte {b : UInt8} (h : ofByte? b = some o) : b = o.toByte := by
  have hall : ∀ n < 256, ∀ o ∈ ofByte? (UInt8.ofNat n), UInt8.ofNat n = o.toByte := by
    decide +kernel
  have hb := hall b.toNat b.toNat_lt o
  rw [UInt8.ofNat_toNat] at hb
  exact hb h

theorem plain_encodes (h : form o = .plain op) : Encodes c [o.toByte] op.opcode op.operand := by
  cases o <;> cases h <;> first
    | exact .bare (by decide)
    | exact @Encodes.short c _ _ 0x1a 0x15 (by decide) (by decide) (by decide) (by decide)
    | exact @Encodes.short c _ _ 0x3b 0x36 (by decide) (by decide) (by decide) (by decide)

theorem byte_encodes {make : UInt8 → Operation} (h : form o = .byte make) (b : UInt8) :
    Encodes c [o.toByte, b] (make b).opcode (make b).operand := by
  cases o <;> cases h <;> first
    | exact .byte b
    | exact .elements b
    | exact .constant b
    | exact .slot b (by decide)

theorem short_encodes {make : UInt16 → Operation} (h : form o = .short make) (hi lo : UInt8) :
    Encodes c [o.toByte, hi, lo] (make (word hi lo)).opcode (make (word hi lo)).operand := by
  cases o <;> cases h <;> first
    | exact .word hi lo
    | exact .pool hi lo (by decide)

theorem wide_encodes (h : localAccess? o = some make) (hi lo : UInt8) :
    Encodes c [Opcode.wide.toByte, o.toByte, hi, lo] (make (word hi lo).toNat).opcode
      (make (word hi lo).toNat).operand := by
  cases o <;> cases h <;> exact .wideSlot hi lo (by decide)

/-- Behind bytes that were read before, the reader takes what makes an instruction of them. -/
def Completes (c : Cursor) (before : List UInt8) (x : Read Operation) : Prop :=
  ∀ ⦃bytes op rest⦄, x bytes = .ok (op, rest) →
    ∃ chunk, Encodes c (before ++ chunk) op.opcode op.operand ∧ bytes = chunk ++ rest

namespace Completes

variable {before : List UInt8} {f : α → Read Operation}

theorem bind {x : Read α} (hx : Takes x P)
    (hf : ∀ ws a, P ws a → Completes c (before ++ ws) (f a)) : Completes c before (x >>= f) := by
  intro bytes op rest h
  obtain ⟨a, mid, ha, hop⟩ := bind_ok_iff.mp h
  obtain ⟨ws, hws, rfl⟩ := (hx _ _ _).mp ha
  obtain ⟨chunk, hchunk, rfl⟩ := hf ws a hws hop
  exact ⟨ws ++ chunk, by rwa [← append_assoc], (append_assoc _ _ _).symm⟩

theorem u8 {f : UInt8 → Read Operation} (hf : ∀ b, Completes c (before ++ [b]) (f b)) :
    Completes c before (Read.u8 c >>= f) :=
  bind takes_u8 fun _ b hb => hb ▸ hf b

theorem u16 {f : UInt16 → Read Operation}
    (hf : ∀ hi lo, Completes c (before ++ [hi, lo]) (f (word hi lo))) :
    Completes c before (Read.u16 c >>= f) := by
  refine bind takes_u16 ?_
  rintro _ _ ⟨hi, lo, rfl, rfl⟩
  exact hf hi lo

theorem pure (h : Encodes c before op.opcode op.operand) : Completes c before (pure op) := by
  intro bytes op' rest hop
  obtain ⟨_, ⟨rfl, rfl⟩, rfl⟩ := (Takes.pure _ _ _ _).mp hop
  exact ⟨[], by rwa [append_nil], rfl⟩

theorem throw (e : DecodeError) : Completes c before (throw e) := fun _ _ _ h => by cases h

theorem guard {p : Prop} [Decidable p] {f : Unit → Read Operation}
    (hf : ¬ p → Completes c before (f ())) :
    Completes c before (if p then MonadExcept.throw e >>= f else f ()) := by
  split
  · exact fun _ _ _ h => by cases h
  · exact hf ‹_›

end Completes

theorem completes_table : Completes c [tableswitch.toByte] (table c) := by
  refine .bind takes_padding fun pad _ hpad => .bind takes_farTarget fun d default hd =>
    .bind takes_i32 fun l low hl => .bind takes_i32 fun h high hh => .guard fun hle =>
    .guard fun _ => .bind (takes_targets _) fun ws ts ⟨hws, hlen⟩ => .pure ?_
  rw [Int32.not_lt] at hle
  have hcount : ts.length = high.toInt - low.toInt + 1 := by
    rw [Int32.le_iff_toInt_le] at hle
    omega
  exact .table hpad hd hl hh hle hws hcount

theorem completes_lookup : Completes c [lookupswitch.toByte] (lookup c) := by
  refine .bind takes_padding fun pad _ hpad => .bind takes_farTarget fun d default hd =>
    .bind takes_i32 fun n count hn => .guard fun hle => .guard fun _ =>
    .bind (takes_pairs _) fun ws ps ⟨hws, hlen⟩ => .pure ?_
  have hcount : ps.length = count.toInt := by
    rw [Int32.not_lt, Int32.le_iff_toInt_le] at hle
    change 0 ≤ count.toInt at hle
    omega
  exact .lookup hpad hd hn hws hcount

theorem completes_wide : Completes c [Opcode.wide.toByte] (wide c) := by
  refine .u8 fun b => ?_
  split
  · exact .throw _
  · rename_i ho
    rw [eq_toByte ho]
    exact .u16 fun w x => .u16 fun y z => .pure (.wideIncrement w x y z)
  · rename_i ho
    rw [eq_toByte ho]
    split
    · rename_i hmake
      exact .u16 fun hi lo => .pure (wide_encodes hmake hi lo)
    · exact .throw _

theorem completes_operation : Completes c [] (operation c) := by
  refine .u8 fun b => ?_
  split
  · exact .throw _
  · rename_i o ho
    rw [eq_toByte ho]
    split <;> rename_i hform
    · exact .pure (plain_encodes hform)
    · exact .u8 fun b => .pure (byte_encodes hform b)
    · exact .u16 fun hi lo => .pure (short_encodes hform hi lo)
    · cases o <;> cases hform
      exact .u8 fun slot => .u8 fun delta => .pure (.increment slot delta)
    · refine .bind takes_nearTarget ?_
      rintro _ t ⟨hi, lo, ht, hlt, rfl⟩
      cases o <;> cases hform <;> exact .pure (.branch hi lo (by decide) ht hlt)
    · refine .bind takes_farTarget fun ws t hws => ?_
      cases o <;> cases hform <;> exact .pure (.farBranch (by simp [Operation.opcode]) hws)
    · cases o <;> cases hform
      exact completes_table
    · cases o <;> cases hform
      exact completes_lookup
    · cases o <;> cases hform
      exact .u16 fun hi lo => .u8 fun count => .u8 fun zero => .pure (.interface hi lo count zero)
    · cases o <;> cases hform
      exact .u16 fun hi lo => .u8 fun dims => .guard fun hdims => .pure (.multi hi lo dims hdims)
    · cases o <;> cases hform
      exact completes_wide

/-! ## What is encoded is read -/

/-- Reading takes the bytes off the front, whatever follows. -/
def Reads (c : Cursor) (chunk : List UInt8) (o : Opcode) (x : Operand) : Prop :=
  ∃ op : Operation, (∀ rest, operation c (chunk ++ rest) = .ok (op, rest)) ∧
    op.opcode = o ∧ op.operand = x

theorem length_le_of_each {xs : List α}
    (hP : ∀ ws a, P ws a → 0 < ws.length) (h : Each P chunk xs) : xs.length ≤ chunk.length := by
  induction h with
  | nil => exact Nat.le_refl 0
  | cons hx _ ih =>
    have hpos := hP _ _ hx
    rw [length_cons, length_append]
    omega

theorem Distance.length_pos (h : Distance c chunk t) : 0 < chunk.length := by
  obtain ⟨d, ⟨w, x, y, z⟩, -⟩ := h
  exact Nat.succ_pos 3

theorem reads_table {pad d l h ws : List UInt8} {low high : Int32} {ts : List Nat}
    (hpad : Padding c pad) (hd : Distance c d default) (hl : Long l low) (hh : Long h high)
    (hle : low ≤ high) (hws : Each (Distance c) ws ts)
    (hcount : (ts.length : Int) = high.toInt - low.toInt + 1) (hsize : ws.length ≤ c.size) :
    table c (pad ++ (d ++ (l ++ (h ++ (ws ++ rest))))) =
      .ok (.tableSwitch default low ts, rest) := by
  have hlen := length_le_of_each (fun _ _ => Distance.length_pos) hws
  have hn : (high.toInt - low.toInt + 1).toNat = ts.length := by omega
  refine bind_ok_iff.mpr ⟨(), _, takes_padding.read hpad, ?_⟩
  refine bind_ok_iff.mpr ⟨default, _, takes_farTarget.read hd, ?_⟩
  refine bind_ok_iff.mpr ⟨low, _, takes_i32.read hl, ?_⟩
  refine bind_ok_iff.mpr ⟨high, _, takes_i32.read hh, ?_⟩
  rw [if_neg (Int32.not_lt.mpr hle)]
  simp only [hn]
  rw [if_neg (by omega)]
  exact bind_ok_iff.mpr ⟨ts, rest, (takes_targets _).read ⟨hws, rfl⟩, rfl⟩

theorem reads_lookup {pad d n ws : List UInt8} {count : Int32}
    {ps : List (Int32 × Nat)} (hpad : Padding c pad) (hd : Distance c d default)
    (hn : Long n count) (hws : Each (Pair c) ws ps) (hcount : (ps.length : Int) = count.toInt)
    (hsize : ws.length ≤ c.size) :
    lookup c (pad ++ (d ++ (n ++ (ws ++ rest)))) = .ok (.lookupSwitch default ps, rest) := by
  have hpos (ws : List UInt8) (p : Int32 × Nat) : Pair c ws p → 0 < ws.length := by
    rintro ⟨ks, ds, -, hds, rfl⟩
    have hpos := Distance.length_pos hds
    rw [length_append]
    omega
  have hlen := length_le_of_each hpos hws
  have hcount' : count.toInt.toNat = ps.length := by omega
  refine bind_ok_iff.mpr ⟨(), _, takes_padding.read hpad, ?_⟩
  refine bind_ok_iff.mpr ⟨default, _, takes_farTarget.read hd, ?_⟩
  refine bind_ok_iff.mpr ⟨count, _, takes_i32.read hn, ?_⟩
  rw [if_neg (Int32.not_lt.mpr (Int32.le_iff_toInt_le.mpr (hcount ▸ Int.natCast_nonneg _)))]
  simp only [hcount']
  rw [if_neg (by omega)]
  exact bind_ok_iff.mpr ⟨ps, rest, (takes_pairs _).read ⟨hws, rfl⟩, rfl⟩

theorem reads_plain (h : form o = .plain op) (ho : op.opcode = generic) (hx : op.operand = x) :
    Reads c [o.toByte] generic x := by
  refine ⟨op, fun rest => bind_ok_iff.mpr ⟨_, _, takes_u8.read rfl, ?_⟩, ho, hx⟩
  simp only [ofByte?_toByte, h]
  rfl

theorem reads_short {first base : UInt8} (hmem : (first, base) ∈ [(0x1a, 0x15), (0x3b, 0x36)])
    (hle : first ≤ o.toByte) (hlt : o.toByte < first + 20)
    (hbase : generic.toByte = base + (o.toByte - first) / 4) :
    Reads c [o.toByte] generic (.local ((o.toByte - first) % 4).toNat) := by
  obtain ⟨op, hop, ho, hx⟩ : ∃ op, form o = .plain op ∧
      op.opcode.toByte = base + (o.toByte - first) / 4 ∧
      op.operand = .local ((o.toByte - first) % 4).toNat := by
    simp only [mem_cons, not_mem_nil, or_false] at hmem
    rcases hmem with ⟨rfl, rfl⟩ | ⟨rfl, rfl⟩ <;> cases o <;> first
      | exact absurd hle (by decide)
      | exact absurd hlt (by decide)
      | exact ⟨_, rfl, by decide, by decide⟩
  have hgeneric : op.opcode = generic := by
    have h := ofByte?_toByte op.opcode
    rwa [ho, ← hbase, ofByte?_toByte, Option.some.injEq, eq_comm] at h
  exact reads_plain hop hgeneric hx

theorem reads_branch {read : Read Nat} (h : form o = .branch make ∧ read = nearTarget c ∨
      form o = .farBranch make ∧ read = farTarget c)
    (ht : ∀ rest, read (ws ++ rest) = .ok (t, rest)) (ho : (make t).opcode = generic)
    (hx : (make t).operand = x) : Reads c (o.toByte :: ws) generic x := by
  refine ⟨make t, fun rest => bind_ok_iff.mpr ⟨o.toByte, ws ++ rest, rfl, ?_⟩, ho, hx⟩
  rcases h with ⟨h, rfl⟩ | ⟨h, rfl⟩ <;> simp only [ofByte?_toByte, h] <;>
    exact bind_ok_iff.mpr ⟨t, rest, ht rest, rfl⟩

/-- What is encoded is read, and nothing else is taken. -/
theorem reads (h : Encodes c chunk o x) (hsize : chunk.length ≤ c.size) : Reads c chunk o x := by
  cases h with
  | bare hb => cases o <;> first | exact ⟨_, fun _ => rfl, rfl, rfl⟩ | exact absurd hb (by decide)
  | short hmem hle hlt hbase => exact reads_short hmem hle hlt hbase
  | byte | word | elements | constant | increment | wideIncrement | interface =>
    exact ⟨_, fun _ => rfl, rfl, rfl⟩
  | pool hi lo ho =>
    simp only [poolOpcodes, mem_cons, not_mem_nil, or_false] at ho
    rcases ho with rfl | rfl | rfl | rfl | rfl | rfl | rfl | rfl | rfl | rfl | rfl | rfl | rfl <;>
      exact ⟨_, fun _ => rfl, rfl, rfl⟩
  | slot b ho | wideSlot hi lo ho =>
    simp only [slotOpcodes, mem_cons, not_mem_nil, or_false] at ho
    rcases ho with rfl | rfl | rfl | rfl | rfl | rfl | rfl | rfl | rfl | rfl | rfl <;>
      exact ⟨_, fun _ => rfl, rfl, rfl⟩
  | branch hi lo ho ht hlt =>
    have hread (rest : List UInt8) : nearTarget c ([hi, lo] ++ rest) = _ :=
      takes_nearTarget.read ⟨hi, lo, ht, hlt, rfl⟩
    cases o <;> first
      | exact absurd ho (by decide)
      | exact reads_branch (.inl ⟨rfl, rfl⟩) hread rfl rfl
  | farBranch ho ht =>
    simp only [mem_cons, not_mem_nil, or_false] at ho
    rcases ho with ⟨rfl, rfl⟩ | ⟨rfl, rfl⟩ <;>
      exact reads_branch (.inr ⟨rfl, rfl⟩) (fun _ => takes_farTarget.read ht) rfl rfl
  | @table pad d l h ws default low _ ts hpad hd hl hh hle hws hcount =>
    refine ⟨.tableSwitch default low ts, fun rest => ?_, rfl, rfl⟩
    have hread : table c _ = .ok (_, rest) := reads_table hpad hd hl hh hle hws hcount (by
      simp at hsize
      omega)
    simp only [cons_append, append_assoc]
    exact hread
  | @lookup pad d n ws default count ps hpad hd hn hws hcount =>
    refine ⟨.lookupSwitch default ps, fun rest => ?_, rfl, rfl⟩
    have hread : lookup c _ = .ok (_, rest) := reads_lookup hpad hd hn hws hcount (by
      simp at hsize
      omega)
    simp only [cons_append, append_assoc]
    exact hread
  | multi hi lo dims hdims =>
    refine ⟨.newMultiArray (word hi lo).toNat dims.toNat, fun rest => ?_, rfl, rfl⟩
    refine bind_ok_iff.mpr ⟨_, hi :: lo :: dims :: rest, rfl, ?_⟩
    refine bind_ok_iff.mpr ⟨word hi lo, dims :: rest, rfl, ?_⟩
    refine bind_ok_iff.mpr ⟨dims, rest, rfl, ?_⟩
    rw [if_neg hdims]
    rfl

end Read

end Bytecode

end ManagedCore
