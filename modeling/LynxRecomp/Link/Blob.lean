import LynxRecomp.Link.Session

/-!
# State-sync blobs

`mp_session.c` sends a save state as a length and the bytes, with a receiver that collects
both from however many pieces the stream comes in.
-/

namespace LynxRecomp

/-- `recv_all`, with what each `recv` answers: the bytes read, or `none` for `false`. A blocking
`recv` waits for at least one byte and, asked nothing more, hands out all that is wanted; the
whole result is `none` if it waits for bytes that never come. -/
def recvAll : List RecvAnswer → Nat → Socket → Option (Option (List Byte) × Socket)
  | _, 0, s => some (some [], s)
  | [], len + 1, s =>
    if len + 1 ≤ s.inbox.length then
      some (some (s.inbox.take (len + 1)), { s with inbox := s.inbox.drop (len + 1) })
    else none
  | .data extra :: answers, len + 1, s =>
    let piece := s.inbox.take (min (extra + 1) (len + 1))
    if piece = [] then none
    else
      (recvAll answers (len + 1 - piece.length)
        { s with inbox := s.inbox.drop (min (extra + 1) (len + 1)) }).map
        fun r => (r.1.map (piece ++ ·), r.2)
  | _ :: _, _ + 1, s => some (none, s)

/-- `hdr[4]`, the length from its lowest byte on -/
def blobHeader (len : Word) : List Byte :=
  [len.setWidth 8, (len >>> 8).setWidth 8, (len >>> 16).setWidth 8, (len >>> 24).setWidth 8]

/-- What a blob is on the wire -/
def blobFrame (payload : List Byte) : List Byte :=
  blobHeader (BitVec.ofNat 32 payload.length) ++ payload

def blobLen : List Byte → Word
  | [a, b, c, d] => word32 (a, b, c, d)
  | _ => 0

/-- The sanity cap, 16 MB -/
def blobCap : Word := 16 <<< 20

/-- `mp_send_blob`, with the answers to the `send`s of the header and of the data -/
def mpSendBlob (hdrAnswers answers : List SendAnswer) (data : List Byte) (size : Int)
    (s : Socket) : Bool × Socket :=
  if s.peer = false ∨ size < 0 then (false, s)
  else
    let len : Word := BitVec.ofInt 32 size
    let hdr := sendAll hdrAnswers (blobHeader len) s
    if hdr.1 = false then (false, hdr.2)
    else if size = 0 then (true, hdr.2)
    else sendAll answers (data.take size.toNat) hdr.2

/-- `mp_recv_blob`, with whether `malloc` succeeds: `*data` and `*size`, or `none` for `false`. -/
def mpRecvBlob (hdrAnswers answers : List RecvAnswer) (malloc : Bool) (s : Socket) :
    Option (Option (List Byte × Int) × Socket) :=
  if s.peer = false then some (none, s)
  else
    match recvAll hdrAnswers 4 s with
    | none => none
    | some (none, s) => some (none, s)
    | some (some hdr, s) =>
      let len := blobLen hdr
      if len = 0 ∨ blobCap < len then some (none, s)
      else if malloc = false then some (none, s)
      else
        match recvAll answers len.toNat s with
        | none => none
        | some (none, s) => some (none, s)
        | some (some buf, s) => some (some (buf, len.toInt), s)

section Pieces

/-- The answers of a working connection: pieces of one byte or more -/
def receivedPieces (pieces : List Nat) : List RecvAnswer := pieces.map .data

/-- In whatever pieces they come, `recv_all` reads the next bytes of the stream, in order. -/
theorem recvAll_pieces (pieces : List Nat) {len : Nat} {s : Socket}
    (enough : len ≤ s.inbox.length) :
    recvAll (receivedPieces pieces) len s =
      some (some (s.inbox.take len), { s with inbox := s.inbox.drop len }) := by
  induction pieces generalizing len s with
  | nil =>
    cases len with
    | zero => rfl
    | succ len => exact if_pos enough
  | cons extra pieces ih =>
    cases len with
    | zero => rfl
    | succ len =>
      let n := min (extra + 1) (len + 1)
      have positive : 0 < n := Nat.lt_min.mpr ⟨extra.succ_pos, len.succ_pos⟩
      have within : n ≤ len + 1 := Nat.min_le_right ..
      have size : (s.inbox.take n).length = n :=
        List.length_take_of_le (Nat.le_trans within enough)
      have some_ : s.inbox.take n ≠ [] := List.ne_nil_of_length_pos (size.symm ▸ positive)
      have rest : len + 1 - n ≤ (s.inbox.drop n).length := by
        rw [List.length_drop]
        exact Nat.sub_le_sub_right enough n
      have later := @ih (len + 1 - n) { s with inbox := s.inbox.drop n } rest
      have step : recvAll (receivedPieces (extra :: pieces)) (len + 1) s =
          (recvAll (receivedPieces pieces) (len + 1 - (s.inbox.take n).length)
            { s with inbox := s.inbox.drop n }).map
            fun r => (r.1.map (s.inbox.take n ++ ·), r.2) := if_neg some_
      have whole : len + 1 = n + (len + 1 - n) := (Nat.add_sub_cancel' within).symm
      rw [step, size, later, whole, List.take_add, ← List.drop_drop]
      rw [← whole]
      rfl

/-- The header, and then the payload if there is one, are handed over. -/
theorem mpSendBlob_sent {hdrAnswers answers : List SendAnswer} {payload : List Byte} {s : Socket}
    (success : (mpSendBlob hdrAnswers answers payload payload.length s).1 = true) :
    (mpSendBlob hdrAnswers answers payload payload.length s).2 =
      { s with outbox := s.outbox ++ blobFrame payload } := by
  have len : BitVec.ofInt 32 payload.length = BitVec.ofNat 32 payload.length := rfl
  unfold mpSendBlob at success ⊢
  split at success
  · cases success
  · rename_i opened
    rw [if_neg opened]
    simp only [len] at success ⊢
    cases hdr : (sendAll hdrAnswers (blobHeader (BitVec.ofNat 32 payload.length)) s).1 with
    | false =>
      rw [hdr] at success
      cases success
    | true =>
      have header := sendAll_sent hdrAnswers _ s hdr
      rw [hdr, header, if_neg (by decide)] at success
      rw [header, if_neg (by decide)]
      by_cases empty : (payload.length : Int) = 0
      · have none : payload = [] := List.length_eq_zero_iff.mp (Int.ofNat_eq_zero.mp empty)
        rw [if_pos empty, none]
        rfl
      · rw [if_neg empty, Int.toNat_natCast, List.take_length] at success ⊢
        rw [sendAll_sent answers payload _ success, blobFrame, List.append_assoc]

/-- What the receiver makes of the header -/
theorem blobLen_blobHeader (len : Word) : blobLen (blobHeader len) = len := word32_split len

/-- The receiver's outcome: it takes the blob off the stream if its size is within the cap, and
otherwise the header alone. -/
def blobOutcome (payload rest : List Byte) (s : Socket) : Option (List Byte × Int) × Socket :=
  if 1 ≤ payload.length ∧ payload.length ≤ 16 * 2 ^ 20 then
    (some (payload, payload.length), { s with inbox := rest })
  else (none, { s with inbox := payload ++ rest })

theorem mpRecvBlob_pieces {payload rest : List Byte} (fits : payload.length < 2 ^ 31)
    (hdrPieces pieces : List Nat) {s : Socket} (opened : s.peer = true)
    (stream : s.inbox = blobFrame payload ++ rest) :
    mpRecvBlob (receivedPieces hdrPieces) (receivedPieces pieces) true s =
      some (blobOutcome payload rest s) := by
  have size : (BitVec.ofNat 32 payload.length).toNat = payload.length :=
    Nat.mod_eq_of_lt (by omega)
  have header : recvAll (receivedPieces hdrPieces) 4 s =
      some (some (blobHeader (BitVec.ofNat 32 payload.length)),
        { s with inbox := payload ++ rest }) := by
    have four : (blobHeader (BitVec.ofNat 32 payload.length)).length = 4 := rfl
    have enough : 4 ≤ s.inbox.length := by
      rw [stream, blobFrame, List.length_append, List.length_append]
      omega
    rw [recvAll_pieces hdrPieces enough, stream, blobFrame, List.append_assoc,
      List.take_left' four, List.drop_left' four]
  have body : recvAll (receivedPieces pieces) (BitVec.ofNat 32 payload.length).toNat
      { s with inbox := payload ++ rest } = some (some payload, { s with inbox := rest }) := by
    rw [size, recvAll_pieces pieces (by simp), List.take_left' rfl, List.drop_left' rfl]
  have refused : BitVec.ofNat 32 payload.length = 0 ∨
      blobCap < BitVec.ofNat 32 payload.length ↔
        ¬ (1 ≤ payload.length ∧ payload.length ≤ 16 * 2 ^ 20) := by
    rw [BitVec.toNat_eq, BitVec.lt_def, size]
    change payload.length = 0 ∨ 16 * 2 ^ 20 < payload.length ↔ _
    omega
  unfold mpRecvBlob blobOutcome
  rw [if_neg (by simp [opened]), header]
  simp only [blobLen_blobHeader]
  by_cases within : 1 ≤ payload.length ∧ payload.length ≤ 16 * 2 ^ 20
  · have signed : (BitVec.ofNat 32 payload.length).toInt = payload.length := by
      rw [BitVec.toInt_eq_toNat_of_lt (by omega), size]
    rw [if_neg (fun small => refused.mp small within), if_neg (by decide), body, if_pos within,
      signed]
  · rw [if_pos (refused.mpr within), if_neg within]

end Pieces

section Survives

/-- What `mp_send_blob` has put on the wire with success, `mp_recv_blob` takes off it as it was,
in whatever pieces, up to the first byte after it, as long as the size is within the cap. -/
theorem blob_survives {hdrAnswers answers : List SendAnswer} {payload : List Byte} {s : Socket}
    (fits : payload.length < 2 ^ 31)
    (success : (mpSendBlob hdrAnswers answers payload payload.length s).1 = true) :
    (mpSendBlob hdrAnswers answers payload payload.length s).2 =
        { s with outbox := s.outbox ++ blobFrame payload } ∧
      ∀ (hdrPieces pieces : List Nat) (rest : List Byte) (r : Socket), r.peer = true →
        r.inbox = blobFrame payload ++ rest →
          mpRecvBlob (receivedPieces hdrPieces) (receivedPieces pieces) true r =
            some (blobOutcome payload rest r) :=
  ⟨mpSendBlob_sent success, fun hdrPieces pieces _ _ opened stream =>
    mpRecvBlob_pieces fits hdrPieces pieces opened stream⟩

/-- A connection that nothing has gone over -/
def freshSocket : Socket := { state := .connected, peer := true, inbox := [], outbox := [] }

/-- Three bytes, sent in five pieces and received in four, before two bytes of the link -/
theorem blob_survives_abc :
    (mpSendBlob [.took 0, .took 1] [.took 0] [0xA, 0xB, 0xC] 3 freshSocket).2 =
        { freshSocket with outbox := blobFrame [0xA, 0xB, 0xC] } ∧
      mpRecvBlob (receivedPieces [1]) (receivedPieces [1]) true
          { freshSocket with inbox := blobFrame [0xA, 0xB, 0xC] ++ [0x55, 0x66] } =
        some (some ([0xA, 0xB, 0xC], 3), { freshSocket with inbox := [0x55, 0x66] }) := by
  rcases @blob_survives [.took 0, .took 1] [.took 0] [0xA, 0xB, 0xC] freshSocket (by decide)
    (by decide) with ⟨sent, received⟩
  exact ⟨sent, received [1] [1] [0x55, 0x66] _ rfl rfl⟩

theorem sendAll_rest (bytes : List Byte) (s : Socket) : (sendAll [] bytes s).1 = true := by
  cases bytes with
  | nil => rfl
  | cons b bytes => rfl

theorem mpSendBlob_rest (payload : List Byte) {s : Socket} (opened : s.peer = true) :
    (mpSendBlob [] [] payload payload.length s).1 = true := by
  unfold mpSendBlob
  rw [if_neg (by simp [opened])]
  simp only [sendAll_rest, Bool.true_eq_false, if_false]
  split
  · rfl
  · exact sendAll_rest ..

theorem blob_lost {payload : List Byte} (fits : payload.length < 2 ^ 31)
    (outside : ¬ (1 ≤ payload.length ∧ payload.length ≤ 16 * 2 ^ 20)) :
    (mpSendBlob [] [] payload payload.length freshSocket).1 = true ∧
      mpRecvBlob [] [] true { freshSocket with
          inbox := (mpSendBlob [] [] payload payload.length freshSocket).2.outbox } =
        some (none, { freshSocket with inbox := payload }) := by
  have success := @mpSendBlob_rest payload freshSocket rfl
  refine ⟨success, ?_⟩
  rw [mpSendBlob_sent success]
  have stream : freshSocket.outbox ++ blobFrame payload = blobFrame payload ++ [] :=
    (List.append_nil _).symm
  have received := @mpRecvBlob_pieces payload [] fits [] []
    { freshSocket with inbox := freshSocket.outbox ++ blobFrame payload } rfl stream
  rw [blobOutcome, if_neg outside, List.append_nil] at received
  exact received

/-- The sender succeeds with a blob of no bytes and with one above the cap, and the receiver
refuses both; it leaves the bytes of the latter in the stream. -/
theorem blob_refused :
    ((mpSendBlob [] [] [] 0 freshSocket).1 = true ∧
      mpRecvBlob [] [] true
          { freshSocket with inbox := (mpSendBlob [] [] [] 0 freshSocket).2.outbox } =
        some (none, freshSocket)) ∧
    ∃ payload : List Byte, payload = List.replicate (16 * 2 ^ 20 + 1) 0 ∧
      (mpSendBlob [] [] payload payload.length freshSocket).1 = true ∧
        mpRecvBlob [] [] true { freshSocket with
            inbox := (mpSendBlob [] [] payload payload.length freshSocket).2.outbox } =
          some (none, { freshSocket with inbox := payload }) := by
  refine ⟨⟨by decide, by decide⟩, ?_⟩
  have large (n : Nat) (fits : n < 2 ^ 31) (above : 16 * 2 ^ 20 < n) := by
    have size : (List.replicate n (0 : Byte)).length = n := List.length_replicate
    exact @blob_lost (List.replicate n 0) (size.symm ▸ fits)
      (fun within => Nat.not_le_of_gt above (size ▸ within.2))
  exact ⟨_, rfl, large _ (by decide) (by decide)⟩

end Survives

end LynxRecomp
