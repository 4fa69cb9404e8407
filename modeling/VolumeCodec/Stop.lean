import VolumeCodec.Fault

namespace VolumeCodec

/-- When the coding of real coefficients stops. -/
inductive Stop
  /-- When every coefficient is coded exactly. -/
  | complete
  /-- After so many bits, if it is not complete before. -/
  | bits (count : Nat)
  /-- When a quality is reached, in decibels relative to the range of the coefficients. -/
  | quality (decibels : Float)

def Stop.ofRequests (bits : Option Nat) (decibels : Option Float) : Except Fault Stop :=
  match bits, decibels with
  | some _, some _ => .error .conflictingStops
  | some count, none => .ok (.bits count)
  | none, some q => if q.isFinite then .ok (.quality q) else .error (.invalidArgument (.quality q))
  | none, none => .ok .complete

end VolumeCodec
