import VolumeCodec.Magnitude

namespace VolumeCodec

/-- A measure of what is still missing while an array is coded, kept up to date as thresholds are
taken off its elements, and the test whether it is good enough to stop. -/
structure Goal (α κ : Type) where
  start : Array α → κ
  update : κ → (old new : α) → κ
  met : κ → Bool

namespace Goal

def never {α : Type} : Goal α Unit where
  start _ := ()
  update _ _ _ := ()
  met _ := false

def squares {α κ : Type} [Add κ] [Sub κ] [Mul κ] (zero : κ) (number : α → κ) (enough : κ → Bool) :
    Goal α κ where
  start residuals := residuals.foldl (fun sum r => sum + number r * number r) zero
  update sum old new := sum + (number new * number new - number old * number old)
  met := enough

/-- Stops when the sum of the squared residuals, kept in doubles, is down to `target`. Such a sum
starts from the negative zero. -/
def squaredError {α : Type} [Magnitude α] (target : Float) : Goal α Float :=
  squares (-0.0) Magnitude.toFloat fun sum => decide (sum ≤ target)

end Goal

end VolumeCodec
