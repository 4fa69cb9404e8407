import VolumeCodec.Fault

namespace VolumeCodec

/-- What an allocator does: a request for so many bytes is granted or refused. -/
structure Memory where
  grants : Nat → Bool

namespace Memory

def bounded : Memory :=
  ⟨fun bytes => decide (bytes < 1 <<< 47)⟩

def unbounded : Memory :=
  ⟨fun _ => true⟩

def request (memory : Memory) (bytes : Nat) : Except Fault Unit :=
  if memory.grants bytes then .ok () else .error (.allocation bytes)

/-- Asks for an array; a byte count above the largest machine word is reported as that word. -/
def requestArray (memory : Memory) (length elementBytes : Nat) : Except Fault Unit :=
  memory.request (min (length * elementBytes) ((1 <<< 64) - 1))

end Memory

end VolumeCodec
