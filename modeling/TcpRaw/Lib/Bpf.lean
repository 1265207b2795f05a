import Mathlib.Algebra.Ring.Nat
import Mathlib.Logic.Function.Basic

/-!
# Classic BPF

The machine that runs a socket filter: an accumulator, an index register, 16 words of scratch
memory, and a program whose jumps go forward only. A load outside the packet ends the program and
rejects the packet, and so does a division by zero; a program that gets to a return says how many
bytes of the packet to keep, and none rejects it.

`attach` is the kernel's check of a program: every instruction is known and its constant is in
range, every jump stays in the program, and the last instruction returns. What it accepts is a
`Program`, and a `Program` ends on every packet (`Program.exec_ends`). The proofs about a given
program follow its run instruction by instruction (`run_ok`, `run_halt`).

The loads of Linux at negative offsets, which read something other than the packet, are not
modelled: they are outside the packet here.
-/

namespace Bpf

/-! ## Instructions -/

/-- An instruction as it is handed to the kernel. -/
structure RawInstruction where
  op : UInt16
  jt : UInt8
  jf : UInt8
  k : UInt32
  deriving DecidableEq, Repr

inductive Size where
  | w
  | h
  | b
  deriving DecidableEq, Repr

def Size.bytes : Size → Nat
  | .w => 4
  | .h => 2
  | .b => 1

/-- The second operand of an operation or a comparison. -/
inductive Operand where
  | k (v : UInt32)
  | x
  deriving DecidableEq, Repr

inductive AluOp where
  | add
  | sub
  | mul
  | div
  | mod
  | and
  | or
  | xor
  | lsh
  | rsh
  deriving DecidableEq, Repr

inductive Cond where
  | eq
  | gt
  | ge
  | set
  deriving DecidableEq, Repr

inductive Instr where
  | ldImm (k : UInt32)
  | ldAbs (size : Size) (k : UInt32)
  | ldInd (size : Size) (k : UInt32)
  | ldMem (i : Fin 16)
  | ldLen
  | ldxImm (k : UInt32)
  | ldxMem (i : Fin 16)
  | ldxLen
  /-- Four times the low half of a byte: the length of an IPv4 header. -/
  | ldxMsh (k : UInt32)
  | st (i : Fin 16)
  | stx (i : Fin 16)
  | alu (op : AluOp) (src : Operand)
  | neg
  | ja (k : UInt32)
  | jmp (cond : Cond) (src : Operand) (jt jf : UInt8)
  | retK (k : UInt32)
  | retA
  | tax
  | txa
  deriving DecidableEq, Repr

/-- An instruction on the scratch word `k`. -/
def scratch (k : UInt32) (f : Fin 16 → Instr) : Option Instr :=
  if h : k.toNat < 16 then some (f ⟨k.toNat, h⟩) else none

/-- The instruction; `none` if the kernel refuses it. -/
def RawInstruction.decode (i : RawInstruction) : Option Instr :=
  match i.op with
  | 0x00 => some (.ldImm i.k)
  | 0x20 => some (.ldAbs .w i.k)
  | 0x28 => some (.ldAbs .h i.k)
  | 0x30 => some (.ldAbs .b i.k)
  | 0x40 => some (.ldInd .w i.k)
  | 0x48 => some (.ldInd .h i.k)
  | 0x50 => some (.ldInd .b i.k)
  | 0x60 => scratch i.k .ldMem
  | 0x80 => some .ldLen
  | 0x01 => some (.ldxImm i.k)
  | 0x61 => scratch i.k .ldxMem
  | 0x81 => some .ldxLen
  | 0xb1 => some (.ldxMsh i.k)
  | 0x02 => scratch i.k .st
  | 0x03 => scratch i.k .stx
  | 0x04 => some (.alu .add (.k i.k))
  | 0x0c => some (.alu .add .x)
  | 0x14 => some (.alu .sub (.k i.k))
  | 0x1c => some (.alu .sub .x)
  | 0x24 => some (.alu .mul (.k i.k))
  | 0x2c => some (.alu .mul .x)
  | 0x34 => if i.k = 0 then none else some (.alu .div (.k i.k))
  | 0x3c => some (.alu .div .x)
  | 0x44 => some (.alu .or (.k i.k))
  | 0x4c => some (.alu .or .x)
  | 0x54 => some (.alu .and (.k i.k))
  | 0x5c => some (.alu .and .x)
  | 0x64 => if i.k < 32 then some (.alu .lsh (.k i.k)) else none
  | 0x6c => some (.alu .lsh .x)
  | 0x74 => if i.k < 32 then some (.alu .rsh (.k i.k)) else none
  | 0x7c => some (.alu .rsh .x)
  | 0x84 => some .neg
  | 0x94 => if i.k = 0 then none else some (.alu .mod (.k i.k))
  | 0x9c => some (.alu .mod .x)
  | 0xa4 => some (.alu .xor (.k i.k))
  | 0xac => some (.alu .xor .x)
  | 0x05 => some (.ja i.k)
  | 0x15 => some (.jmp .eq (.k i.k) i.jt i.jf)
  | 0x1d => some (.jmp .eq .x i.jt i.jf)
  | 0x25 => some (.jmp .gt (.k i.k) i.jt i.jf)
  | 0x2d => some (.jmp .gt .x i.jt i.jf)
  | 0x35 => some (.jmp .ge (.k i.k) i.jt i.jf)
  | 0x3d => some (.jmp .ge .x i.jt i.jf)
  | 0x45 => some (.jmp .set (.k i.k) i.jt i.jf)
  | 0x4d => some (.jmp .set .x i.jt i.jf)
  | 0x06 => some (.retK i.k)
  | 0x16 => some .retA
  | 0x07 => some .tax
  | 0x87 => some .txa
  | _ => none

/-! ## Runs -/

/-- The registers, the scratch memory and the next instruction. -/
structure State where
  pc : Nat
  a : UInt32
  x : UInt32
  mem : Fin 16 → UInt32

def State.init : State where
  pc := 0
  a := 0
  x := 0
  mem _ := 0

/-- The state at the next instruction. -/
def State.next (s : State) : State := { s with pc := s.pc + 1 }

/-- How a program ends. -/
inductive Halt where
  /-- At a return, with the number of bytes to keep. -/
  | returned (v : UInt32)
  /-- At a load outside the packet, or a division by zero. -/
  | rejected
  deriving DecidableEq, Repr

/-- The packet is kept. -/
def Halt.Accepts : Halt → Prop
  | .returned v => v ≠ 0
  | .rejected => False

instance : DecidablePred Halt.Accepts
  | .returned v => inferInstanceAs (Decidable (v ≠ 0))
  | .rejected => .isFalse id

/-- The bytes of a packet at `i`, in network order. -/
def load (pkt : List UInt8) (size : Size) (i : UInt32) : Except Halt UInt32 :=
  if i.toNat + size.bytes ≤ pkt.length then
    .ok (UInt32.ofNat
      (((pkt.drop i.toNat).take size.bytes).foldl (fun v byte => v * 2 ^ 8 + byte.toNat) 0))
  else .error .rejected

def Operand.eval (s : State) : Operand → UInt32
  | .k v => v
  | .x => s.x

def AluOp.eval (a v : UInt32) : AluOp → Except Halt UInt32
  | .add => .ok (a + v)
  | .sub => .ok (a - v)
  | .mul => .ok (a * v)
  | .div => if v = 0 then .error .rejected else .ok (a / v)
  | .mod => if v = 0 then .error .rejected else .ok (a % v)
  | .and => .ok (a &&& v)
  | .or => .ok (a ||| v)
  | .xor => .ok (a ^^^ v)
  -- by the low five bits of `v`
  | .lsh => .ok (a <<< v)
  | .rsh => .ok (a >>> v)

def Cond.eval (a v : UInt32) : Cond → Bool
  | .eq => a == v
  | .gt => decide (v < a)
  | .ge => decide (v ≤ a)
  | .set => a &&& v != 0

/-- One instruction: the state after it, or how the program ends there. -/
def Instr.step (pkt : List UInt8) (s : State) : Instr → Except Halt State
  | .ldImm k => pure { s.next with a := k }
  | .ldAbs size k => do
    let v ← load pkt size k
    pure { s.next with a := v }
  | .ldInd size k => do
    let v ← load pkt size (s.x + k)
    pure { s.next with a := v }
  | .ldMem i => pure { s.next with a := s.mem i }
  | .ldLen => pure { s.next with a := UInt32.ofNat pkt.length }
  | .ldxImm k => pure { s.next with x := k }
  | .ldxMem i => pure { s.next with x := s.mem i }
  | .ldxLen => pure { s.next with x := UInt32.ofNat pkt.length }
  | .ldxMsh k => do
    let v ← load pkt .b k
    pure { s.next with x := 4 * (v &&& 0xf) }
  | .st i => pure { s.next with mem := Function.update s.mem i s.a }
  | .stx i => pure { s.next with mem := Function.update s.mem i s.x }
  | .alu op src => do
    let v ← op.eval s.a (src.eval s)
    pure { s.next with a := v }
  | .neg => pure { s.next with a := -s.a }
  | .ja k => pure { s with pc := s.pc + 1 + k.toNat }
  | .jmp cond src jt jf =>
    pure { s with pc := s.pc + 1 + (if cond.eval s.a (src.eval s) then jt else jf).toNat }
  | .retK k => .error (.returned k)
  | .retA => .error (.returned s.a)
  | .tax => pure { s.next with x := s.a }
  | .txa => pure { s.next with a := s.x }

/-- At most `fuel` instructions from `s` on: how the program ends, if it does. -/
def run (prog : List Instr) (pkt : List UInt8) : Nat → State → Option Halt
  | 0, _ => none
  | fuel + 1, s => do
    let i ← prog[s.pc]?
    match i.step pkt s with
    | .ok s' => run prog pkt fuel s'
    | .error h => some h

section
variable {prog : List Instr} {pkt : List UInt8} {s s' : State} {i : Instr}

theorem run_ok (hi : prog[s.pc]? = some i) (h : i.step pkt s = .ok s') (fuel : Nat) :
    run prog pkt (fuel + 1) s = run prog pkt fuel s' := by
  simp only [run, hi, Option.bind_eq_bind, Option.bind_some, h]

theorem run_halt (hi : prog[s.pc]? = some i) {e : Halt} (h : i.step pkt s = .error e) (fuel : Nat) :
    run prog pkt (fuel + 1) s = some e := by
  simp only [run, hi, Option.bind_eq_bind, Option.bind_some, h]

theorem step_jmp {cond : Cond} {src : Operand} {jt jf : UInt8} {c : Bool}
    (h : cond.eval s.a (src.eval s) = c) :
    (Instr.jmp cond src jt jf).step pkt s =
      .ok { s with pc := s.pc + 1 + (if c then jt else jf).toNat } := by
  rw [Instr.step, h]
  rfl

/-! ## Programs that the kernel accepts -/

/-- The instruction returns. -/
def Instr.returns : Instr → Bool
  | .retK _ | .retA => true
  | _ => false

/-- The jumps of the instruction at `pc` stay in a program of `len` instructions. -/
def Instr.inRange (len pc : Nat) : Instr → Bool
  | .ja k => decide (pc + k.toNat + 1 < len)
  | .jmp _ _ jt jf => decide (pc + jt.toNat + 1 < len) && decide (pc + jf.toNat + 1 < len)
  | _ => true

/-- The kernel's check of a program. -/
def check (prog : List Instr) : Bool :=
  (List.range prog.length).all (fun pc => (prog[pc]?).all (Instr.inRange prog.length pc)) &&
    (prog.getLast?).any Instr.returns

/-- A program that passes the check. -/
structure Program where
  instrs : List Instr
  checked : check instrs = true

/-- The program that the kernel makes of raw instructions; `none` if it refuses them. -/
def attach (raw : List RawInstruction) : Option Program := do
  let instrs ← raw.mapM RawInstruction.decode
  if checked : check instrs = true then some ⟨instrs, checked⟩ else none

/-- How the program ends on a packet. -/
def Program.exec (p : Program) (pkt : List UInt8) : Option Halt :=
  run p.instrs pkt p.instrs.length .init

/-- The program keeps the packet. -/
def Program.Accepts (p : Program) (pkt : List UInt8) : Prop := ∃ h, p.exec pkt = some h ∧ h.Accepts

theorem Program.accepts_of_exec {p : Program} {h : Halt} (he : p.exec pkt = some h) :
    p.Accepts pkt ↔ h.Accepts := by
  simp [Program.Accepts, he]

/-- **Where an instruction goes on**: at the next one, or at the target of a jump. -/
theorem step_pc (h : i.step pkt s = .ok s') :
    i.returns = false ∧ (s'.pc = s.pc + 1 ∨ (∃ k, i = .ja k ∧ s'.pc = s.pc + 1 + k.toNat) ∨
      ∃ cond src jt jf, i = .jmp cond src jt jf ∧
        (s'.pc = s.pc + 1 + jt.toNat ∨ s'.pc = s.pc + 1 + jf.toNat)) := by
  have hbind : ∀ {r : Except Halt UInt32} {f : UInt32 → State}, (∀ v, (f v).pc = s.pc + 1) →
      (r >>= fun v => pure (f v)) = .ok s' → s'.pc = s.pc + 1 := by
    intro r f hf hr
    cases r with
    | error e => cases hr
    | ok v =>
      cases hr
      exact hf v
  cases i with
  | ldAbs | ldInd | ldxMsh | alu => exact ⟨rfl, .inl (hbind (fun _ => rfl) h)⟩
  | ja k =>
    cases h
    exact ⟨rfl, .inr (.inl ⟨k, rfl, rfl⟩)⟩
  | jmp cond src jt jf =>
    cases h
    refine ⟨rfl, .inr (.inr ⟨cond, src, jt, jf, rfl, ?_⟩)⟩
    dsimp only
    split
    · exact .inl rfl
    · exact .inr rfl
  | retK | retA => cases h
  | _ =>
    cases h
    exact ⟨rfl, .inl rfl⟩

/-- A step of a checked program goes forward and stays in it. -/
theorem Program.step_lt (p : Program) (hi : p.instrs[s.pc]? = some i) (h : i.step pkt s = .ok s') :
    s.pc < s'.pc ∧ s'.pc < p.instrs.length := by
  obtain ⟨hjumps, hlast⟩ := Bool.and_eq_true_iff.1 p.checked
  obtain ⟨hlt, -⟩ := List.getElem?_eq_some_iff.1 hi
  have hrange : i.inRange p.instrs.length s.pc = true := by
    have := List.all_eq_true.1 hjumps s.pc (List.mem_range.2 hlt)
    rwa [hi] at this
  obtain ⟨hret, hpc | ⟨k, rfl, hpc⟩ | ⟨cond, src, jt, jf, rfl, hpc⟩⟩ := step_pc h
  · refine ⟨by omega, ?_⟩
    -- the instruction does not return, so it is not the last
    by_contra hend
    rw [List.getLast?_eq_getElem?, show p.instrs.length - 1 = s.pc by omega, hi] at hlast
    rw [show i.returns = true from hlast] at hret
    cases hret
  · have := of_decide_eq_true hrange
    omega
  · obtain ⟨ht, hf⟩ := Bool.and_eq_true_iff.1 hrange
    have := of_decide_eq_true ht
    have := of_decide_eq_true hf
    omega

theorem Program.run_ends (p : Program) (pkt : List UInt8) : ∀ (fuel : Nat) (s : State),
    s.pc < p.instrs.length → p.instrs.length ≤ s.pc + fuel → ∃ h, run p.instrs pkt fuel s = some h
  | 0, s, hlt, hfuel => by omega
  | fuel + 1, s, hlt, hfuel => by
    have hi := List.getElem?_eq_getElem hlt
    cases hstep : (p.instrs[s.pc]).step pkt s with
    | error h => exact ⟨h, run_halt hi hstep fuel⟩
    | ok s' =>
      obtain ⟨hforward, hin⟩ := p.step_lt hi hstep
      rw [run_ok hi hstep]
      exact p.run_ends pkt fuel s' hin (by omega)

/-- **A program that the kernel accepts ends on every packet.** -/
theorem Program.exec_ends (p : Program) (pkt : List UInt8) : ∃ h, p.exec pkt = some h := by
  have hpos : 0 < p.instrs.length := by
    by_contra hnil
    have hlast := (Bool.and_eq_true_iff.1 p.checked).2
    rw [List.length_eq_zero_iff.1 (Nat.eq_zero_of_not_pos hnil)] at hlast
    cases hlast
  exact p.run_ends pkt p.instrs.length .init hpos (Nat.le_add_left _ _)

end

/-! ## Loads -/

theorem load_b {pkt : List UInt8} {i : UInt32} {b : UInt8} (h : pkt[i.toNat]? = some b) :
    load pkt .b i = .ok b.toUInt32 := by
  obtain ⟨hlt, rfl⟩ := List.getElem?_eq_some_iff.1 h
  have hin : i.toNat + Size.b.bytes ≤ pkt.length := hlt
  rw [load, if_pos hin, List.drop_eq_getElem_cons hlt]
  simp only [Size.bytes, List.take_succ_cons, List.take_zero, List.foldl_cons, List.foldl_nil,
    Nat.zero_mul, Nat.zero_add, UInt32.ofNat_uInt8ToNat]

theorem load_h {pkt : List UInt8} {i : UInt32} {b c : UInt8} (hb : pkt[i.toNat]? = some b)
    (hc : pkt[i.toNat + 1]? = some c) :
    load pkt .h i = .ok (UInt16.ofNat (b.toNat * 2 ^ 8 + c.toNat)).toUInt32 := by
  obtain ⟨hlt, rfl⟩ := List.getElem?_eq_some_iff.1 hb
  obtain ⟨hlt', rfl⟩ := List.getElem?_eq_some_iff.1 hc
  have hin : i.toNat + Size.h.bytes ≤ pkt.length := hlt'
  have hfst := (pkt[i.toNat]).toNat_lt
  have hsnd := (pkt[i.toNat + 1]).toNat_lt
  rw [load, if_pos hin, List.drop_eq_getElem_cons hlt, List.drop_eq_getElem_cons hlt']
  simp only [Size.bytes, List.take_succ_cons, List.take_zero, List.foldl_cons, List.foldl_nil,
    Except.ok.injEq]
  apply UInt32.toNat_inj.1
  simp only [UInt32.toNat_ofNat', UInt16.toNat_toUInt32, UInt16.toNat_ofNat']
  omega

theorem load_out {pkt : List UInt8} {size : Size} {i : UInt32}
    (h : pkt.length < i.toNat + size.bytes) : load pkt size i = .error .rejected :=
  if_neg (Nat.not_le_of_lt h)

end Bpf
