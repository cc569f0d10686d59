import Mathlib.Algebra.Ring.Nat
import Mathlib.Data.List.Basic

/-!
# RIFF files

A chunk is an identifier, a size and as many bytes, filled up to an even number. A RIFF file is
a chunk whose body is a form type and chunks again. In a WAVE file these say how sound is
stored, and store it.
-/

namespace Riff

abbrev Octet := BitVec 8

section Numbers

/-- A number with its lowest byte first -/
def number : List Octet → Nat
  | [] => 0
  | b :: bs => b.toNat + 256 * number bs

/-- The `n` lowest bytes of a number -/
def octets : Nat → Nat → List Octet
  | 0, _ => []
  | n + 1, v => BitVec.ofNat 8 v :: octets n (v / 256)

@[simp] theorem length_octets (n v : Nat) : (octets n v).length = n := by
  induction n generalizing v with
  | zero => rfl
  | succ n ih => exact congrArg (· + 1) (ih _)

theorem number_octets {n v : Nat} (fits : v < 256 ^ n) : number (octets n v) = v := by
  induction n generalizing v with
  | zero =>
    have none : v = 0 := Nat.lt_one_iff.mp fits
    rw [none]
    rfl
  | succ n ih =>
    have rest : v / 256 < 256 ^ n := Nat.div_lt_of_lt_mul (by rwa [Nat.mul_comm, ← Nat.pow_succ])
    rw [octets, number, ih rest, BitVec.toNat_ofNat]
    exact Nat.mod_add_div v 256

end Numbers

structure Chunk where
  id : List Octet
  body : List Octet
  deriving DecidableEq, Repr

namespace Chunk

variable (c : Chunk)

def print : List Octet :=
  c.id ++ octets 4 c.body.length ++ c.body ++ List.replicate (c.body.length % 2) 0

/-- The identifier has four bytes, and the size fits into as many. -/
structure Fits : Prop where
  id : c.id.length = 4
  body : c.body.length < 2 ^ 32

end Chunk

/-- The chunk at the front, and what follows it -/
def chunk (bs : List Octet) : Option (Chunk × List Octet) :=
  let size := number ((bs.drop 4).take 4)
  let rest := bs.drop 8
  if bs.length < 8 ∨ rest.length < size then none
  else some (⟨bs.take 4, rest.take size⟩, rest.drop (size + size % 2))

def chunksFrom : Nat → List Octet → Option (List Chunk)
  | _, [] => some []
  | 0, _ :: _ => none
  | fuel + 1, b :: bs =>
    (chunk (b :: bs)).bind fun r => (chunksFrom fuel r.2).map (r.1 :: ·)

/-- The chunks one after the other, up to the end -/
def chunks (bs : List Octet) : Option (List Chunk) := chunksFrom bs.length bs

section Chunks

variable {c : Chunk} {cs : List Chunk}

theorem chunk_print (fits : c.Fits) (rest : List Octet) :
    chunk (c.print ++ rest) = some (c, rest) := by
  let padding : List Octet := List.replicate (c.body.length % 2) 0
  have shape : c.print ++ rest =
      c.id ++ (octets 4 c.body.length ++ (c.body ++ (padding ++ rest))) := by
    simp [Chunk.print, padding]
  have after : (c.print ++ rest).drop 4 =
      octets 4 c.body.length ++ (c.body ++ (padding ++ rest)) := by
    rw [shape]
    exact List.drop_left' fits.id
  have body : (c.print ++ rest).drop 8 = c.body ++ (padding ++ rest) := by
    rw [← List.drop_drop (i := 4) (j := 4), after]
    exact List.drop_left' (length_octets ..)
  have size : number (((c.print ++ rest).drop 4).take 4) = c.body.length := by
    rw [after, List.take_left' (length_octets ..)]
    exact number_octets fits.body
  have long : ¬((c.print ++ rest).length < 8 ∨
      ((c.print ++ rest).drop 8).length < c.body.length) := by
    rw [body, shape]
    simp only [List.length_append, length_octets, fits.id]
    omega
  have last : (c.body ++ (padding ++ rest)).drop (c.body.length + c.body.length % 2) = rest := by
    rw [← List.append_assoc]
    apply List.drop_left'
    rw [List.length_append, List.length_replicate]
  rw [chunk, size, if_neg long, body, last, List.take_left' rfl, shape,
    List.take_left' fits.id]

theorem print_ne_nil (fits : c.Fits) (rest : List Octet) : c.print ++ rest ≠ [] := by
  apply List.ne_nil_of_length_pos
  simp only [Chunk.print, List.length_append, fits.id]
  omega

theorem chunksFrom_print (fits : ∀ c ∈ cs, c.Fits) {fuel : Nat} (enough : cs.length ≤ fuel) :
    chunksFrom fuel (cs.flatMap Chunk.print) = some cs := by
  induction cs generalizing fuel with
  | nil => cases fuel <;> rfl
  | cons c cs ih =>
    rcases List.forall_mem_cons.mp fits with ⟨here, later⟩
    obtain ⟨fuel, rfl⟩ := Nat.exists_eq_add_of_le' (Nat.le_trans (Nat.le_add_left 1 _) enough)
    rcases List.exists_cons_of_ne_nil (print_ne_nil here (cs.flatMap Chunk.print)) with
      ⟨b, bs, shape⟩
    rw [List.flatMap_cons, shape, chunksFrom, ← shape, chunk_print here, Option.bind_some,
      ih later (Nat.le_of_succ_le_succ enough), Option.map_some]

theorem length_le_print (fits : ∀ c ∈ cs, c.Fits) :
    cs.length ≤ (cs.flatMap Chunk.print).length := by
  induction cs with
  | nil => exact Nat.le_refl 0
  | cons c cs ih =>
    rcases List.forall_mem_cons.mp fits with ⟨here, later⟩
    have some_ := List.length_pos_of_ne_nil (print_ne_nil here [])
    rw [List.append_nil] at some_
    have rest := ih later
    rw [List.flatMap_cons, List.length_append, List.length_cons]
    omega

/-- Chunks that were written one after the other are read again. -/
theorem chunks_print (fits : ∀ c ∈ cs, c.Fits) : chunks (cs.flatMap Chunk.print) = some cs :=
  chunksFrom_print fits (length_le_print fits)

end Chunks

/-- `"RIFF"` -/
def riffId : List Octet := [0x52, 0x49, 0x46, 0x46]

/-- The form type and the chunks of a RIFF file -/
def read (bs : List Octet) : Option (List Octet × List Chunk) :=
  (chunk bs).bind fun r =>
    if r.1.id = riffId ∧ 4 ≤ r.1.body.length then
      (chunks (r.1.body.drop 4)).map (r.1.body.take 4, ·)
    else none

theorem read_print {form : List Octet} {cs : List Chunk} (type : form.length = 4)
    (fits : ∀ c ∈ cs, c.Fits) (small : (form ++ cs.flatMap Chunk.print).length < 2 ^ 32)
    (rest : List Octet) :
    read ((Chunk.mk riffId (form ++ cs.flatMap Chunk.print)).print ++ rest) = some (form, cs) := by
  have long : 4 ≤ (form ++ cs.flatMap Chunk.print).length := by
    rw [List.length_append, type]
    exact Nat.le_add_right ..
  rw [read, chunk_print ⟨rfl, small⟩, Option.bind_some, if_pos ⟨rfl, long⟩,
    List.drop_left' type, List.take_left' type, chunks_print fits, Option.map_some]

/-- What a WAVE file says of its sound -/
structure Wave where
  format : Nat
  channels : Nat
  rate : Nat
  byteRate : Nat
  align : Nat
  bits : Nat
  data : List Octet
  deriving DecidableEq, Repr

/-- `"WAVE"` -/
def waveForm : List Octet := [0x57, 0x41, 0x56, 0x45]

/-- `"fmt "` -/
def fmtId : List Octet := [0x66, 0x6D, 0x74, 0x20]

/-- `"data"` -/
def dataId : List Octet := [0x64, 0x61, 0x74, 0x61]

/-- The first chunk with an identifier -/
def bodyOf (id : List Octet) (cs : List Chunk) : Option (List Octet) :=
  (cs.find? (·.id = id)).map Chunk.body

def wave (bs : List Octet) : Option Wave :=
  (read bs).bind fun r =>
    (bodyOf fmtId r.2).bind fun fmt =>
      (bodyOf dataId r.2).bind fun data =>
        if r.1 = waveForm ∧ 16 ≤ fmt.length then
          some {
            format := number (fmt.take 2)
            channels := number ((fmt.drop 2).take 2)
            rate := number ((fmt.drop 4).take 4)
            byteRate := number ((fmt.drop 8).take 4)
            align := number ((fmt.drop 12).take 2)
            bits := number ((fmt.drop 14).take 2)
            data := data }
        else none

namespace Wave

variable (w : Wave)

/-- Uncompressed samples whose sizes agree -/
structure Pcm : Prop where
  format : w.format = 1
  align : 8 * w.align = w.channels * w.bits
  byteRate : w.byteRate = w.rate * w.align

/-- The samples of a channel of 16 bits -/
def samples : List Octet → List (BitVec 16)
  | lo :: hi :: rest => (hi ++ lo) :: samples rest
  | _ => []

end Wave

end Riff
