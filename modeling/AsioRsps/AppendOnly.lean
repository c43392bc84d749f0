import AsioRsps.BufferGrowth
import AsioRsps.LabelledRuns

/-!
# Runs of writes

Runs of write operations on one buffer, also after some of them have thrown. The two cursors
are brought together by `SetAccessType` alone, and only `WriteByte` checks which of them is in
use: an operation appends exactly as long as it works at the cursor that marks the end, or at
one beyond it.
-/
namespace AsioRsps
open BitStrings StateChanges LabelledRuns

namespace StreamBuffer

/-- A write operation with the cipher it is passed. -/
structure Call where
  op : WriteOp
  cipher : ISAACCipher

def Call.run (call : Call) : StreamM Unit := fun b =>
  match call.op.run (b, call.cipher) with
  | .ok () (b', _) => .ok () b'
  | .error e (b', _) => .error e b'

theorem Call.run_eq (call : Call) : call.run = call.op.withKey call.cipher.nextKey := by
  funext b
  rw [Call.run, WriteOp.run_eq]
  cases h : call.op.withKey call.cipher.nextKey b with
  | ok a b' => rw [onBuffer_ok _ h]
  | error e b' => rw [onBuffer_error _ h]

/-- The cursors are `int32_t`. -/
def InRange (b : StreamBuffer) : Prop := b.pos < 2 ^ 31 ∧ b.bitPosition < 2 ^ 31

end StreamBuffer

open StreamBuffer

/-- Where the size of a frame goes. -/
structure SizeField where
  offset : Nat
  width : Nat

/-- A buffer with the size field of the frame that was opened last and not closed since. -/
structure Writing where
  buffer : StreamBuffer
  field : Option SizeField

namespace Writing

/-- The size field after an operation that has succeeded. -/
def fieldAfter (w : Writing) : WriteOp → Option SizeField
  | .header _ .byte => some ⟨w.buffer.pos + 1, 1⟩
  | .header _ .short => some ⟨w.buffer.pos + 1, 2⟩
  | .finish => none
  | _ => w.field

/-- An operation succeeds, or throws and leaves what it has done so far. Where the language
leaves undefined what happens there is no step: an access outside a vector, a cursor that
overflows. -/
inductive Step : Writing → Call → Writing → Prop where
  | done {w : Writing} {call : Call} {b : StreamBuffer} :
      call.run w.buffer = .ok () b → b.InRange → Step w call ⟨b, w.fieldAfter call.op⟩
  | thrown {w : Writing} {call : Call} {e : Fault} {b : StreamBuffer} :
      call.run w.buffer = .error e b → e.isException → b.InRange → Step w call ⟨b, w.field⟩

end Writing
end AsioRsps
