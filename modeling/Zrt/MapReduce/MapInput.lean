import Mathlib.Data.List.Basic

/-!
# Input of a mapper

`MapInputDataProvider` fills the input buffer of a mapper. It is meant to put the bytes the user's
`Map` left unhandled in front of the next bytes of the input.
-/

namespace Zrt.MapReduce

/-- `memcpy` or `read` of some bytes into a buffer, at its start. -/
def copyToStart (buffer data : List UInt8) : List UInt8 := data ++ buffer.drop data.length

/-- What a call of the provider leaves: the buffer, the size it returns and the rest of the
input. -/
structure ProvidedInput where
  buffer : List UInt8
  returnedBufSize : Nat
  stream : List UInt8

/-- The buffer before the read and `rest_data_in_buffer`. A `Map` that handled nothing or less than
half of its buffer fails an assertion; otherwise the unhandled bytes are moved to the start. -/
def prepareInputBuffer (inputBuffer : Option (List UInt8))
    (requestedBufSize unhandledDataPos : Nat) : Option (List UInt8 × Nat) :=
  match inputBuffer with
  | none => some (List.replicate (requestedBufSize + 1) 0, 0)
  | some buffer =>
      let restDataInBuffer := requestedBufSize - unhandledDataPos
      if unhandledDataPos = 0 then none
      else if unhandledDataPos < requestedBufSize / 2 then none
      else if unhandledDataPos ≠ requestedBufSize then
        some (copyToStart buffer ((buffer.drop unhandledDataPos).take restDataInBuffer),
          restDataInBuffer)
      else some (buffer, restDataInBuffer)

/-- One call of the provider. The read returns as many bytes as are available up to the request, and
always stores them at the start of the buffer; reading nothing fails an assertion. -/
def mapInputDataProvider (stream : List UInt8) (inputBuffer : Option (List UInt8))
    (requestedBufSize unhandledDataPos : Nat) : Option ProvidedInput :=
  (prepareInputBuffer inputBuffer requestedBufSize unhandledDataPos).bind
    fun (buffer, restDataInBuffer) =>
      let readed := stream.take (requestedBufSize - restDataInBuffer)
      if readed.isEmpty then none
      else some ⟨copyToStart buffer readed, restDataInBuffer + readed.length,
        stream.drop (requestedBufSize - restDataInBuffer)⟩

/-- With a fresh buffer the provider delivers the next bytes of the input and nothing else. -/
theorem mapInputDataProvider_fresh (stream : List UInt8) (requestedBufSize pos : Nat) :
    mapInputDataProvider stream none requestedBufSize pos =
      if (stream.take requestedBufSize).isEmpty then none
      else some ⟨copyToStart (List.replicate (requestedBufSize + 1) 0)
          (stream.take requestedBufSize),
        (stream.take requestedBufSize).length, stream.drop requestedBufSize⟩ := by
  simp [mapInputDataProvider, prepareInputBuffer]

theorem take_copyToStart (buffer data : List UInt8) :
    (copyToStart buffer data).take data.length = data := by
  simp [copyToStart]

/-- A buffer presented to `Map` and the position `Map` returned. -/
structure Presented where
  buffer : List UInt8
  unhandledDataPos : Nat
  pos_le : unhandledDataPos ≤ buffer.length
deriving DecidableEq

namespace Presented

def consumed (p : Presented) : List UInt8 := p.buffer.take p.unhandledDataPos

def tail (p : Presented) : List UInt8 := p.buffer.drop p.unhandledDataPos

/-- Every buffer is the given tail followed by the next bytes of the input, and leaves its own tail
to the next one. -/
def CarriesTails : List UInt8 → List UInt8 → List Presented → Prop
  | _, _, [] => True
  | tail, stream, p :: ps =>
      ∃ k, p.buffer = tail ++ stream.take k ∧ CarriesTails p.tail (stream.drop k) ps

/-- The tail of the last buffer. -/
def finalTail (ps : List Presented) : List UInt8 := (ps.getLast?.map tail).getD []

/-- No byte of the input is lost between the buffers. -/
def LosesNothing (input : List UInt8) (ps : List Presented) : Prop :=
  CarriesTails [] input ps ∧ ps.flatMap consumed ++ finalTail ps = input

theorem consumed_append_tail (p : Presented) : p.consumed ++ p.tail = p.buffer :=
  List.take_append_drop _ _

private theorem consumed_of_tail {p : Presented} (h : p.tail = []) : p.consumed = p.buffer := by
  have happ := p.consumed_append_tail
  rwa [h, List.append_nil] at happ

theorem finalTail_cons_cons (p q : Presented) (ps : List Presented) :
    finalTail (p :: q :: ps) = finalTail (q :: ps) := by
  simp [finalTail, List.getLast?_cons_cons]

private theorem length_consumed_finalTail_le (ps : List Presented) :
    (ps.flatMap consumed ++ finalTail ps).length ≤ (ps.flatMap buffer).length := by
  induction ps with
  | nil => simp [finalTail]
  | cons p ps ih =>
      have hp : p.consumed.length ≤ p.buffer.length := by
        rw [← p.consumed_append_tail]
        simp
      cases ps with
      | nil => simp [finalTail, p.consumed_append_tail]
      | cons q ps =>
          rw [finalTail_cons_cons]
          simp only [List.flatMap_cons, List.append_assoc, List.length_append] at ih ⊢
          omega

/-- When the buffers are consecutive pieces of the input, nothing is lost exactly when all of them
but the last are handled whole. -/
theorem losesNothing_iff (ps : List Presented) :
    LosesNothing (ps.flatMap buffer) ps ↔ ∀ p ∈ ps.dropLast, p.tail = [] := by
  induction ps with
  | nil => simp [LosesNothing, CarriesTails, finalTail]
  | cons p ps ih =>
      cases ps with
      | nil =>
          have hfirst : CarriesTails [] p.buffer [p] := ⟨p.buffer.length, by simp, trivial⟩
          simp [LosesNothing, hfirst, finalTail, p.consumed_append_tail]
      | cons q ps =>
          have hbuffers : (p :: q :: ps).flatMap buffer = p.buffer ++ (q :: ps).flatMap buffer :=
            List.flatMap_cons
          have hconsumed : (p :: q :: ps).flatMap consumed =
              p.consumed ++ (q :: ps).flatMap consumed := List.flatMap_cons
          rw [List.dropLast_cons_cons, List.forall_mem_cons, ← ih, LosesNothing, LosesNothing,
            CarriesTails, finalTail_cons_cons, hbuffers, hconsumed, List.append_assoc]
          constructor
          · rintro ⟨⟨k, hk, hrest⟩, htotal⟩
            have hlen := congrArg List.length htotal
            have hle := length_consumed_finalTail_le (q :: ps)
            have hsplit := congrArg List.length p.consumed_append_tail
            simp only [List.length_append] at hlen hle hsplit
            have htail : p.tail = [] := List.length_eq_zero_iff.mp (by omega)
            rw [consumed_of_tail htail] at htotal
            refine ⟨htail, ?_, List.append_cancel_left htotal⟩
            have hdrop : (p.buffer ++ (q :: ps).flatMap buffer).drop k = (q :: ps).flatMap buffer := by
              have happ := List.take_append_drop k (p.buffer ++ (q :: ps).flatMap buffer)
              rw [List.nil_append] at hk
              rw [← hk] at happ
              exact List.append_cancel_left happ
            rwa [hdrop, htail] at hrest
          · rintro ⟨htail, hrest, htotal⟩
            refine ⟨⟨p.buffer.length, by simp, ?_⟩, ?_⟩
            · simpa [htail] using hrest
            · rw [consumed_of_tail htail, htotal]

end Presented

end Zrt.MapReduce
