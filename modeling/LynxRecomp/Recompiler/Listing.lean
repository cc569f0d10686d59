import LynxRecomp.Lib.Numeral
import LynxRecomp.Recompiler.Decode

/-!
# The disassembly listing

`dis` sweeps an image with `analyze_linear` and prints a line for each instruction, with the
hardware register that it names. The lines say all about the bytes: they can be read back.
-/

namespace LynxRecomp

/-- `mnemonic` of the opcode table -/
def Mnemonic.text : Mnemonic → String
  | .adc => "ADC" | .and => "AND" | .asl => "ASL" | .bcc => "BCC"
  | .bcs => "BCS" | .beq => "BEQ" | .bit => "BIT" | .bmi => "BMI"
  | .bne => "BNE" | .bpl => "BPL" | .bra => "BRA" | .brk => "BRK"
  | .bvc => "BVC" | .bvs => "BVS" | .clc => "CLC" | .cld => "CLD"
  | .cli => "CLI" | .clv => "CLV" | .cmp => "CMP" | .cpx => "CPX"
  | .cpy => "CPY" | .dec => "DEC" | .dex => "DEX" | .dey => "DEY"
  | .eor => "EOR" | .inc => "INC" | .inx => "INX" | .iny => "INY"
  | .jmp => "JMP" | .jsr => "JSR" | .lda => "LDA" | .ldx => "LDX"
  | .ldy => "LDY" | .lsr => "LSR" | .nop => "NOP" | .ora => "ORA"
  | .pha => "PHA" | .php => "PHP" | .phx => "PHX" | .phy => "PHY"
  | .pla => "PLA" | .plp => "PLP" | .plx => "PLX" | .ply => "PLY"
  | .rol => "ROL" | .ror => "ROR" | .rti => "RTI" | .rts => "RTS"
  | .sbc => "SBC" | .sec => "SEC" | .sed => "SED" | .sei => "SEI"
  | .sta => "STA" | .stp => "STP" | .stx => "STX" | .sty => "STY"
  | .stz => "STZ" | .tax => "TAX" | .tay => "TAY" | .trb => "TRB"
  | .tsb => "TSB" | .tsx => "TSX" | .txa => "TXA" | .txs => "TXS"
  | .tya => "TYA" | .wai => "WAI"
  | .bbr n => "BBR" ++ toString n.val
  | .bbs n => "BBS" ++ toString n.val
  | .rmb n => "RMB" ++ toString n.val
  | .smb n => "SMB" ++ toString n.val

/-- What `m65c02_format` prints after the mnemonic -/
def operandText (i : Insn) : List Char :=
  let byte := Hex.print 2 i.operand.toNat
  let word := Hex.print 4 i.operand.toNat
  let target := Hex.print 4 i.target.toNat
  match i.mode with
  | .imp => []
  | .acc => " A".toList
  | .imm => " #$".toList ++ byte
  | .zp => " $".toList ++ byte
  | .zpx => " $".toList ++ byte ++ ",X".toList
  | .zpy => " $".toList ++ byte ++ ",Y".toList
  | .izx => " ($".toList ++ byte ++ ",X)".toList
  | .izy => " ($".toList ++ byte ++ "),Y".toList
  | .izp => " ($".toList ++ byte ++ ")".toList
  | .rel => " $".toList ++ target
  | .abs => " $".toList ++ word
  | .abx => " $".toList ++ word ++ ",X".toList
  | .aby => " $".toList ++ word ++ ",Y".toList
  | .ind => " ($".toList ++ word ++ ")".toList
  | .iax => " ($".toList ++ word ++ ",X)".toList
  | .zprel => " $".toList ++ byte ++ ",$".toList ++ target

def insnText (i : Insn) : List Char := i.mnemonic.text.toList ++ operandText i

/-- `m65c02_format`, with the size of the buffer -/
def m65c02Format (bufsz : Nat) (i : Insn) : List Char := (insnText i).take (bufsz - 1)

section Registers

/-- The names of the Suzy registers, by their offset from `$FC00` -/
def suzyNames : List (Addr × String) := [
  (0xFC00, "TMPADRL"), (0xFC01, "TMPADRH"), (0xFC04, "HOFFL"), (0xFC05, "HOFFH"),
  (0xFC06, "VOFFL"), (0xFC07, "VOFFH"), (0xFC08, "VIDBASL"), (0xFC09, "VIDBASH"),
  (0xFC0A, "COLLBASL"), (0xFC0B, "COLLBASH"), (0xFC0C, "VIDADRL"), (0xFC0E, "COLLADRL"),
  (0xFC10, "SCBNEXTL"), (0xFC11, "SCBNEXTH"), (0xFC12, "SPRDLINEL"), (0xFC14, "HPOSSTRTL"),
  (0xFC16, "VPOSSTRTL"), (0xFC18, "SPRHSIZL"), (0xFC1A, "SPRVSIZL"), (0xFC1C, "STRETCHL"),
  (0xFC1E, "TILTL"), (0xFC20, "SPRDOFFL"), (0xFC22, "SPRVPOSL"), (0xFC52, "MATHD"),
  (0xFC53, "MATHC"), (0xFC54, "MATHB"), (0xFC55, "MATHA"), (0xFC56, "MATHP"), (0xFC57, "MATHN"),
  (0xFC60, "MATHH"), (0xFC61, "MATHG"), (0xFC62, "MATHF"), (0xFC63, "MATHE"), (0xFC6C, "MATHM"),
  (0xFC6E, "MATHK"), (0xFC80, "SPRCTL0"), (0xFC81, "SPRCTL1"), (0xFC82, "SPRCOLL"),
  (0xFC83, "SPRINIT"), (0xFC88, "SUZYHREV"), (0xFC90, "SUZYBUSEN"), (0xFC91, "SPRGO"),
  (0xFC92, "SPRSYS"), (0xFCB0, "JOYSTICK"), (0xFCB1, "SWITCHES"), (0xFCB2, "RCART0"),
  (0xFCB3, "RCART1"), (0xFCC0, "LEDS")]

/-- The names of the Mikey registers that stand for themselves -/
def mikeyNames : List (Addr × String) := [
  (0xFD40, "ATTENA"), (0xFD41, "ATTENB"), (0xFD42, "ATTENC"), (0xFD43, "ATTEND"),
  (0xFD44, "MPAN"), (0xFD50, "MSTEREO"), (0xFD80, "INTRST"), (0xFD81, "INTSET"),
  (0xFD86, "AUDIN"), (0xFD87, "SYSCTL1"), (0xFD8A, "IODIR"), (0xFD8B, "IODAT"),
  (0xFD8C, "SERCTL"), (0xFD8D, "SERDAT"), (0xFD90, "SDONEACK"), (0xFD91, "CPUSLEEP"),
  (0xFD92, "DISPCTL"), (0xFD93, "PBKUP"), (0xFD94, "DISPADRL"), (0xFD95, "DISPADRH")]

def systemNames : List (Addr × String) := [
  (0xFFF9, "MAPCTL"), (0xFFFA, "NMI_VEC_L"), (0xFFFB, "NMI_VEC_H"), (0xFFFC, "RESET_VEC_L"),
  (0xFFFD, "RESET_VEC_H"), (0xFFFE, "IRQ_VEC_L"), (0xFFFF, "IRQ_VEC_H")]

def timerField : List String := ["BKUP", "CTLA", "CNT", "CTLB"]

def audioField : List String := ["VOL", "FEED", "DAC", "SHIFTLO", "RELOAD", "CTL", "CNT", "MISC"]

/-- `lynx_reg_name` -/
def lynxRegName (a : Addr) : Option String :=
  let o := (a &&& 0xFF).toNat
  if 0xFC00 ≤ a ∧ a ≤ 0xFCFF then suzyNames.lookup a
  else if 0xFD00 ≤ a ∧ a ≤ 0xFDFF then
    if o ≤ 0x1F then some ("TIM" ++ toString (o / 4) ++ timerField.getD (o % 4) "")
    else if 0x20 ≤ o ∧ o ≤ 0x3F then
      some ("AUD" ++ String.singleton (Char.ofNat (65 + (o - 0x20) / 8)) ++
        audioField.getD (o % 8) "")
    else if 0xA0 ≤ o ∧ o ≤ 0xAF then some ("GREEN" ++ String.ofList (Hex.print 1 (o % 16)))
    else if 0xB0 ≤ o ∧ o ≤ 0xBF then some ("BLUERED" ++ String.ofList (Hex.print 1 (o % 16)))
    else mikeyNames.lookup a
  else systemNames.lookup a

/-- `lynx_reg_note` -/
def lynxRegNote (a : Addr) : Option String :=
  if a = 0xFC91 then some "start blitter"
  else if a = 0xFC10 ∨ a = 0xFC11 then some "first SCB ptr"
  else if a = 0xFC08 ∨ a = 0xFC09 then some "video buffer base"
  else if a = 0xFCB0 then some "D-pad + buttons"
  else if a = 0xFD80 then some "ack interrupts"
  else if a = 0xFD81 then some "pending interrupts"
  else if a = 0xFD92 then some "video DMA enable/flip"
  else if a = 0xFD94 ∨ a = 0xFD95 then some "framebuffer base (display)"
  else if a = 0xFFF9 then some "map hardware vs RAM"
  else if a = 0xFFFE ∨ a = 0xFFFF then some "IRQ handler addr"
  else none

end Registers

/-- What `dis_cb` prints, without the end of the line -/
def disCb (i : Insn) : List Char :=
  let text := m65c02Format 48 i
  let reg := match i.mode with
    | .abs | .abx | .aby | .ind | .iax => lynxRegName i.operand
    | _ => none
  let column := Hex.print 4 i.pc.toNat ++ "  ".toList ++ Hex.print 2 i.opcode.toNat ++ " ".toList
  match reg with
  | none => column ++ text
  | some reg =>
    let padded := column ++ text.rightpad 18 ' ' ++ " ; ".toList ++ reg.toList
    match lynxRegNote i.operand with
    | none => padded
    | some note => padded ++ " (".toList ++ note.toList ++ ")".toList

section Sweep

variable (rom : List Byte) (base : Addr)

/-- The instruction at an offset. Past the end of the image its bytes are 0. -/
def insnAt (off : Nat) : Insn :=
  m65c02Decode (rom.getD off 0) (rom.getD (off + 1) 0) (rom.getD (off + 2) 0)
    (base + BitVec.ofNat 16 off)

/-- The loop of `analyze_linear`, which passes one byte at least in each turn; `count` is 0 for
no limit, and `n` instructions have been passed on. -/
def linearSweep (count : Nat) : Nat → Nat → Nat → List Insn
  | 0, _, _ => []
  | fuel + 1, off, n =>
    if off < rom.length ∧ (count = 0 ∨ n < count) then
      let i := insnAt rom base off
      if rom.length - off < i.len then []
      else i :: linearSweep count fuel (off + i.len) (n + 1)
    else []

/-- `analyze_linear`: the instructions that it calls back with -/
def analyzeLinear (startOff count : Nat) : List Insn :=
  linearSweep rom base count (rom.length - startOff) startOff 0

end Sweep

section Reading

/-- Where the digits of the operand start after the mnemonic -/
def operandColumn : AddrMode → Nat
  | .imm | .izx | .izy | .izp | .ind | .iax => 3
  | _ => 2

def readByte (text : List Char) : Byte := BitVec.ofNat 8 (Hex.read (text.take 2))

def readWord (text : List Char) : Addr := BitVec.ofNat 16 (Hex.read (text.take 4))

/-- The bytes after the opcode, from the text of an instruction -/
def readOperand (mode : AddrMode) (pc : Addr) (text : List Char) : List Byte :=
  match mode with
  | .imp | .acc => []
  | .imm | .zp | .zpx | .zpy | .izx | .izy | .izp => [readByte text]
  | .rel => [(readWord text - (pc + 2)).setWidth 8]
  | .abs | .abx | .aby | .ind | .iax =>
    [(readWord text).setWidth 8, (readWord text >>> 8).setWidth 8]
  | .zprel => [readByte text, (readWord (text.drop 4) - (pc + 3)).setWidth 8]

/-- The address and the bytes of an instruction, from its line of the listing -/
def readLine (line : List Char) : Addr × List Byte :=
  let pc := readWord line
  let opcode := readByte (line.drop 6)
  let info := opInfo opcode
  let text := line.drop (9 + (info.mnemonic.text.length + operandColumn info.mode))
  (pc, opcode :: readOperand info.mode pc text)

theorem readByte_print (b : Byte) (rest : List Char) :
    readByte (Hex.print 2 b.toNat ++ rest) = b := by
  have fits : b.toNat < 16 ^ 2 := b.isLt
  rw [readByte, List.take_left' (Hex.length_print fits), Hex.read_print, BitVec.ofNat_toNat,
    BitVec.setWidth_eq]

theorem readWord_print (a : Addr) (rest : List Char) :
    readWord (Hex.print 4 a.toNat ++ rest) = a := by
  have fits : a.toNat < 16 ^ 4 := a.isLt
  rw [readWord, List.take_left' (Hex.length_print fits), Hex.read_print, BitVec.ofNat_toNat,
    BitVec.setWidth_eq]

/-- The displacement of a branch is what its target is away from the next instruction. -/
theorem displacement_read (next : Addr) (d : Byte) :
    (next + d.signExtend 16 - next).setWidth 8 = d := by
  rw [BitVec.add_comm, BitVec.add_sub_cancel]
  revert d
  decide

variable (m0 m1 m2 : Byte) (pc : Addr)

theorem byte_operand (b : Byte) : (b.setWidth 16 : Addr).toNat = b.toNat :=
  BitVec.toNat_setWidth_of_le (by decide)

section Signs

variable (text : List Char)

theorem drop_dollar : (" $".toList ++ text).drop 2 = text := rfl

theorem drop_hash : (" #$".toList ++ text).drop 3 = text := rfl

theorem drop_paren : (" ($".toList ++ text).drop 3 = text := rfl

/-- After the digits of the byte of BBRn and BBSn -/
theorem drop_byte (b : Byte) : (Hex.print 2 b.toNat ++ (",$".toList ++ text)).drop 4 = text := by
  have fits : b.toNat < 16 ^ 2 := b.isLt
  have split : (Hex.print 2 b.toNat ++ ",$".toList).length = 4 := by
    rw [List.length_append, Hex.length_print fits]
    rfl
  rw [← List.append_assoc, List.drop_left' split]

end Signs

/-- The bytes of the operand are read back from its text, whatever follows. -/
theorem readOperand_text (tail : List Char) :
    readOperand (opInfo m0).mode pc
        ((operandText (m65c02Decode m0 m1 m2 pc) ++ tail).drop (operandColumn (opInfo m0).mode)) =
      [m1, m2].take ((m65c02Decode m0 m1 m2 pc).len - 1) := by
  unfold operandText m65c02Decode insnTarget
  cases (opInfo m0).mode <;>
    simp only [m65c02ModeLen, insnOperand, readOperand, operandColumn, byte_operand,
      List.append_assoc, drop_dollar, drop_hash, drop_paren, drop_byte, readByte_print,
      readWord_print, displacement_read]
  case imp | acc | imm | zp | zpx | zpy | izx | izy | izp | rel | zprel => rfl
  case abs | abx | aby | ind | iax =>
    rw [word16_low, word16_high]
    rfl

theorem mnemonic_length (m : Mnemonic) : m.text.toList.length ≤ 4 := by
  have bits : ∀ n : Fin 8, ∀ name ∈ ["BBR", "BBS", "RMB", "SMB"],
      (name ++ toString n.val).toList.length ≤ 4 := by decide
  cases m
  case bbr n => exact bits n _ (by decide)
  case bbs n => exact bits n _ (by decide)
  case rmb n => exact bits n _ (by decide)
  case smb n => exact bits n _ (by decide)
  all_goals decide

theorem print_length (w : Nat) (narrow : w ≤ 4) (a : Addr) : (Hex.print w a.toNat).length ≤ 4 :=
  Hex.length_print_le narrow a.isLt

theorem operandText_length (i : Insn) : (operandText i).length ≤ 12 := by
  have byte := print_length 2 (by decide) i.operand
  have word := print_length 4 (by decide) i.operand
  have target := print_length 4 (by decide) i.target
  have signs : (" #$".toList.length = 3 ∧ " $".toList.length = 2 ∧ " ($".toList.length = 3) ∧
      ",X".toList.length = 2 ∧ ",Y".toList.length = 2 ∧ ",X)".toList.length = 3 ∧
        "),Y".toList.length = 3 ∧ ")".toList.length = 1 ∧ ",$".toList.length = 2 ∧
          " A".toList.length = 2 := by decide
  unfold operandText
  cases i.mode <;> simp only [List.length_append, List.length_nil] <;> omega

/-- The buffer of `dis_cb` holds the text of any instruction. -/
theorem m65c02Format_whole (i : Insn) : m65c02Format 48 i = insnText i := by
  apply List.take_of_length_le
  have mnemonic := mnemonic_length i.mnemonic
  have operand := operandText_length i
  rw [insnText, List.length_append]
  omega

/-- A line begins with the address, the opcode and the text. -/
theorem disCb_text (i : Insn) : ∃ tail, disCb i = Hex.print 4 i.pc.toNat ++ ("  ".toList ++
    (Hex.print 2 i.opcode.toNat ++ (" ".toList ++ (insnText i ++ tail)))) := by
  unfold disCb
  rw [m65c02Format_whole]
  simp only
  split
  · exact ⟨[], by simp only [List.append_assoc, List.append_nil]⟩
  · rw [List.rightpad]
    split
    · exact ⟨_, by simp only [List.append_assoc]; rfl⟩
    · exact ⟨_, by simp only [List.append_assoc]; rfl⟩

/-- What stands in the columns of a line -/
theorem disCb_columns (i : Insn) : readWord (disCb i) = i.pc ∧
    readByte ((disCb i).drop 6) = i.opcode ∧
    ∃ tail, ∀ k, (disCb i).drop (9 + (i.mnemonic.text.length + k)) =
      (operandText i ++ tail).drop k := by
  rcases disCb_text i with ⟨tail, line⟩
  have address : i.pc.toNat < 16 ^ 4 := i.pc.isLt
  have opcode : i.opcode.toNat < 16 ^ 2 := i.opcode.isLt
  have six : (Hex.print 4 i.pc.toNat ++ "  ".toList).length = 6 := by
    rw [List.length_append, Hex.length_print address]
    rfl
  have three : (Hex.print 2 i.opcode.toNat ++ " ".toList).length = 3 := by
    rw [List.length_append, Hex.length_print opcode]
    rfl
  have second : (disCb i).drop 6 =
      Hex.print 2 i.opcode.toNat ++ (" ".toList ++ (insnText i ++ tail)) := by
    rw [line, ← List.append_assoc]
    exact List.drop_left' six
  have third : (disCb i).drop 9 = insnText i ++ tail := by
    have nine : (disCb i).drop 9 = ((disCb i).drop 6).drop 3 := by rw [List.drop_drop]
    rw [nine, second, ← List.append_assoc]
    exact List.drop_left' three
  refine ⟨?_, ?_, tail, fun k => ?_⟩
  · rw [line]
    exact readWord_print i.pc _
  · rw [second]
    exact readByte_print i.opcode _
  · rw [← List.drop_drop, third, ← List.drop_drop, insnText, List.append_assoc]
    exact congrArg _ (List.drop_left' String.length_toList)

/-- A line is read back as the address and the bytes of its instruction. -/
theorem readLine_disCb : readLine (disCb (m65c02Decode m0 m1 m2 pc)) =
    (pc, [m0, m1, m2].take (m65c02Decode m0 m1 m2 pc).len) := by
  rcases disCb_columns (m65c02Decode m0 m1 m2 pc) with ⟨address, opcode, tail, after⟩
  have code : readByte ((disCb (m65c02Decode m0 m1 m2 pc)).drop 6) = m0 := opcode
  have text : (disCb (m65c02Decode m0 m1 m2 pc)).drop (9 + ((opInfo m0).mnemonic.text.length +
      operandColumn (opInfo m0).mode)) = _ := after _
  have len := (m65c02Decode_len m0 m1 m2 pc).1
  unfold readLine
  rw [code, address]
  simp only
  rw [text, m65c02Decode_pc, readOperand_text, ← List.take_succ_cons, Nat.sub_add_cancel len]

example : disCb (m65c02Decode 0x8D 0x91 0xFC 0x0200) =
    "0200  8D STA $FC91          ; SPRGO (start blitter)".toList := by decide

end Reading

section Whole

variable (rom : List Byte) (base : Addr)

/-- The number of bytes that instructions take -/
def bytesOf (insns : List Insn) : Nat := (insns.map Insn.len).sum

/-- The instructions follow each other in the image from an offset on. -/
def Follows : Nat → List Insn → Prop
  | _, [] => True
  | off, i :: rest =>
    i = insnAt rom base off ∧ off + i.len ≤ rom.length ∧ Follows (off + i.len) rest

theorem linearSweep_follows (count fuel off n : Nat) :
    Follows rom base off (linearSweep rom base count fuel off n) := by
  induction fuel generalizing off n with
  | zero => trivial
  | succ fuel ih =>
    rw [linearSweep]
    split
    · rename_i inside
      simp only
      split
      · trivial
      · exact ⟨rfl, by omega, ih _ _⟩
    · trivial

/-- How a sweep ends: at the limit, at the end of the image, or before an instruction that the
image has not got all bytes of. -/
structure SweepEnds (count n off : Nat) (insns : List Insn) : Prop where
  within : count = 0 ∨ n + insns.length ≤ count
  last : count ≠ 0 ∧ n + insns.length = count ∨ rom.length ≤ off + bytesOf insns ∨
    rom.length - (off + bytesOf insns) < (insnAt rom base (off + bytesOf insns)).len

theorem linearSweep_ends {count fuel off n : Nat} (enough : rom.length - off ≤ fuel)
    (below : count = 0 ∨ n ≤ count) :
    SweepEnds rom base count n off (linearSweep rom base count fuel off n) := by
  induction fuel generalizing off n with
  | zero => exact ⟨below, .inr (.inl (Nat.le_of_sub_eq_zero (Nat.le_zero.mp enough)))⟩
  | succ fuel ih =>
    rw [linearSweep]
    by_cases more : off < rom.length ∧ (count = 0 ∨ n < count)
    · rw [if_pos more]
      simp only
      have len : 1 ≤ (insnAt rom base off).len := (m65c02Decode_len _ _ _ _).1
      by_cases truncated : rom.length - off < (insnAt rom base off).len
      · rw [if_pos truncated]
        exact ⟨below, .inr (.inr truncated)⟩
      · rw [if_neg truncated]
        have rest := @ih (off + (insnAt rom base off).len) (n + 1) (by omega) (by omega)
        have bytes (insns : List Insn) : off + bytesOf (insnAt rom base off :: insns) =
            off + (insnAt rom base off).len + bytesOf insns := by
          rw [bytesOf, List.map_cons, List.sum_cons, Nat.add_assoc]
          rfl
        have count_ (insns : List Insn) : n + (insnAt rom base off :: insns).length =
            n + 1 + insns.length := by
          rw [List.length_cons]
          omega
        refine ⟨?_, ?_⟩
        · rw [count_]
          exact rest.within
        · rw [count_, bytes]
          exact rest.last
    · rw [if_neg more]
      refine ⟨below, ?_⟩
      by_cases inside : off < rom.length
      · have full : count ≠ 0 ∧ n = count := by omega
        exact .inl full
      · exact .inr (.inl (Nat.le_of_not_lt inside))

theorem take_three (d : List Byte) {len : Nat} (few : len ≤ 3) (enough : len ≤ d.length) :
    [d.getD 0 0, d.getD 1 0, d.getD 2 0].take len = d.take len := by
  match d, len with
  | _, 0 => rfl
  | a :: _, 1 => rfl
  | a :: b :: _, 2 => rfl
  | a :: b :: c :: _, 3 => rfl
  | [], _ + 1 => exact absurd enough (Nat.not_succ_le_zero _)
  | [_], _ + 2 => exact absurd (Nat.le_of_succ_le_succ enough) (Nat.not_succ_le_zero _)
  | [_, _], 3 => exact absurd enough (Nat.not_succ_le_self 2)
  | _, len + 4 => exact absurd few (by omega)

theorem readLine_insnAt {off : Nat} (whole : off + (insnAt rom base off).len ≤ rom.length) :
    readLine (disCb (insnAt rom base off)) =
      (base + BitVec.ofNat 16 off, (rom.drop off).take (insnAt rom base off).len) := by
  have few : (insnAt rom base off).len ≤ 3 := (m65c02Decode_len _ _ _ _).2
  have cell (k : Nat) : rom.getD (off + k) 0 = (rom.drop off).getD k 0 := by
    rw [List.getD_eq_getElem?_getD, List.getD_eq_getElem?_getD, List.getElem?_drop]
  have enough : (insnAt rom base off).len ≤ (rom.drop off).length := by
    rw [List.length_drop]
    omega
  rw [← take_three (rom.drop off) few enough, ← cell 0, ← cell 1, ← cell 2]
  exact readLine_disCb ..

/-- What is read back from the lines of instructions that follow each other: the bytes, and with
each line the address of its first byte -/
theorem readLines_follows {off : Nat} {insns : List Insn} (follows : Follows rom base off insns) :
    let lines := insns.map fun i => readLine (disCb i)
    lines.flatMap Prod.snd = (rom.drop off).take (bytesOf insns) ∧
      ∀ k line, lines[k]? = some line →
        line.1 = base + BitVec.ofNat 16 (off + ((lines.take k).flatMap Prod.snd).length) := by
  induction insns generalizing off with
  | nil => exact ⟨by simp [bytesOf], by simp⟩
  | cons i rest ih =>
    rcases follows with ⟨rfl, whole, follows⟩
    rcases ih follows with ⟨bytes, addresses⟩
    have line := readLine_insnAt rom base whole
    have total : bytesOf (insnAt rom base off :: rest) =
        (insnAt rom base off).len + bytesOf rest := List.sum_cons
    have size : ((rom.drop off).take (insnAt rom base off).len).length =
        (insnAt rom base off).len := by
      rw [List.length_take, List.length_drop]
      omega
    simp only [List.map_cons, line]
    refine ⟨?_, fun k other found => ?_⟩
    · rw [List.flatMap_cons, bytes, total, List.take_add, List.drop_drop]
    · cases k with
      | zero =>
        rw [← Option.some.inj found]
        rfl
      | succ k =>
        rw [addresses k other found, List.take_succ_cons, List.flatMap_cons, List.length_append,
          size, Nat.add_assoc]

/-- The listing of `dis` loses nothing: read back, its lines give the bytes of the image from the
start of the sweep on, each line with the address of its first byte, and the sweep leaves bytes
out only where it reaches its limit or an instruction is cut off by the end of the image. -/
theorem listing_readBack (startOff count : Nat) :
    let insns := analyzeLinear rom base startOff count
    let lines := insns.map fun i => readLine (disCb i)
    lines.flatMap Prod.snd = (rom.drop startOff).take (bytesOf insns) ∧
      (∀ k line, lines[k]? = some line → line.1 =
        base + BitVec.ofNat 16 (startOff + ((lines.take k).flatMap Prod.snd).length)) ∧
      SweepEnds rom base count 0 startOff insns := by
  rcases readLines_follows rom base
    (linearSweep_follows rom base count (rom.length - startOff) startOff 0) with ⟨bytes, addresses⟩
  have ends : SweepEnds rom base count 0 startOff
      (linearSweep rom base count (rom.length - startOff) startOff 0) :=
    linearSweep_ends rom base (Nat.le_refl _) (.inr (Nat.zero_le count))
  exact ⟨bytes, addresses, ends⟩

end Whole

end LynxRecomp
