import Mathlib.Analysis.SpecialFunctions.Sqrt
import Mathlib.Tactic

/-!
# Zones of relevance

One carrier stands for `float` and `double`. `Arith` names the operations
that the forwarder uses and assumes no law about them, so a result over
every carrier also holds of rounded arithmetic. Exact arithmetic is the
instance of the real numbers.
-/

namespace Cafe

class Arith (F : Type) extends Zero F, One F, Add F, Sub F, Mul F, Div F, LT F, LE F where
  decEq : DecidableEq F
  decLt : DecidableRel ((· < ·) : F → F → Prop)
  decLe : DecidableRel ((· ≤ ·) : F → F → Prop)
  hypot : F → F → F
  /-- `std::numeric_limits<float>::max()` -/
  inf : F
  /-- A literal of the source. -/
  lit : ℚ → F
  /-- The conversion to an unsigned integer. -/
  trunc : F → ℕ

attribute [reducible, instance] Arith.decEq Arith.decLt Arith.decLe

noncomputable instance : Arith ℝ where
  decEq := inferInstance
  decLt := inferInstance
  decLe := inferInstance
  hypot x y := √(x ^ 2 + y ^ 2)
  inf := 340282346638528859811704183484516925440
  lit q := q
  trunc x := ⌊x⌋₊

section

variable {F : Type} [Arith F]

/-- The operator `==`, which compares values and not representations. -/
def eqValue (a b : F) : Prop := a ≤ b ∧ b ≤ a

instance (a b : F) : Decidable (eqValue a b) := inferInstanceAs (Decidable (_ ∧ _))

/-- `std::min` -/
def stdMin (a b : F) : F := if b < a then b else a

/-- `std::clamp` -/
def stdClamp (v lo hi : F) : F := if v < lo then lo else if hi < v then hi else v

end

structure Point (F : Type) where
  x : F
  y : F
  deriving DecidableEq

namespace Point

variable {F : Type} [Arith F]

def distanceFromPoint (p other : Point F) : F := Arith.hypot (p.x - other.x) (p.y - other.y)

def distanceFromLine (p a b : Point F) : F :=
  let dx := b.x - a.x
  let dy := b.y - a.y
  if eqValue dx 0 ∧ eqValue dy 0 then
    p.distanceFromPoint a
  else
    let v := ((p.x - a.x) * dx + (p.y - a.y) * dy) / (dx * dx + dy * dy)
    let t := stdClamp v 0 1
    p.distanceFromPoint ⟨a.x + t * dx, a.y + t * dy⟩

end Point

/-- Exact distances along the first axis. -/
theorem Point.distance_axis (x y : ℝ) : Point.distanceFromPoint ⟨x, 0⟩ ⟨y, 0⟩ = |x - y| := by
  simp [Point.distanceFromPoint, Arith.hypot, Real.sqrt_sq_eq_abs]

inductive ZoR (F : Type)
  | neighbor
  | circle (center : Point F) (radius : F)
  | polygon (vertices : List (Point F))
  | composite (components : List (ZoR F))

namespace ZoR

section DecEq

variable {F : Type} [DecidableEq F]

mutual

def decEq : (z w : ZoR F) → Decidable (z = w)
  | neighbor, neighbor => isTrue rfl
  | circle c r, circle c' r' => decidable_of_iff (c = c' ∧ r = r') (by simp)
  | polygon vs, polygon ws => decidable_of_iff (vs = ws) (by simp)
  | composite zs, composite ws =>
      match decEqList zs ws with
      | isTrue h => isTrue (by rw [h])
      | isFalse h => isFalse (by simpa using h)
  | neighbor, circle .. => isFalse nofun
  | neighbor, polygon .. => isFalse nofun
  | neighbor, composite .. => isFalse nofun
  | circle .., neighbor => isFalse nofun
  | circle .., polygon .. => isFalse nofun
  | circle .., composite .. => isFalse nofun
  | polygon .., neighbor => isFalse nofun
  | polygon .., circle .. => isFalse nofun
  | polygon .., composite .. => isFalse nofun
  | composite .., neighbor => isFalse nofun
  | composite .., circle .. => isFalse nofun
  | composite .., polygon .. => isFalse nofun

def decEqList : (zs ws : List (ZoR F)) → Decidable (zs = ws)
  | [], [] => isTrue rfl
  | [], _ :: _ => isFalse nofun
  | _ :: _, [] => isFalse nofun
  | z :: zs, w :: ws =>
      match decEq z w, decEqList zs ws with
      | isTrue h, isTrue h' => isTrue (by rw [h, h'])
      | isFalse h, _ => isFalse (by simp [h])
      | _, isFalse h' => isFalse (by simp [h'])

end

instance : DecidableEq (ZoR F) := decEq

end DecEq

variable {F : Type} [Arith F]

/-- The scan of the edges `(vertices[i], vertices[j])`, where `j` trails `i`. -/
def crossings (p : Point F) : Point F → List (Point F) → Bool → Bool
  | _, [], inside => inside
  | vj, vi :: rest, inside =>
      let crosses := decide (decide (p.y < vi.y) ≠ decide (p.y < vj.y) ∧
        p.x < (vj.x - vi.x) * (p.y - vi.y) / (vj.y - vi.y) + vi.x)
      crossings p vi rest (if crosses then !inside else inside)

def polygonContains (vertices : List (Point F)) (p : Point F) : Bool :=
  match vertices.getLast? with
  | none => false
  | some last => crossings p last vertices false

/-- The least distance to the edges from each vertex to the next one. -/
def edgeDistance (p first : Point F) : List (Point F) → F → F
  | [], minDist => minDist
  | [a], minDist => stdMin minDist (p.distanceFromLine a first)
  | a :: b :: rest, minDist =>
      edgeDistance p first (b :: rest) (stdMin minDist (p.distanceFromLine a b))

def polygonDistance (vertices : List (Point F)) (p : Point F) : F :=
  match vertices with
  | [] => Arith.inf
  | first :: rest => edgeDistance p first (first :: rest) Arith.inf

mutual

def contains : ZoR F → Point F → Bool
  | neighbor, _ => false
  | circle center radius, p => p.distanceFromPoint center ≤ radius
  | polygon vertices, p => polygonContains vertices p
  | composite components, p => containsAny components p

def containsAny : List (ZoR F) → Point F → Bool
  | [], _ => false
  | z :: zs, p => z.contains p || containsAny zs p

end

mutual

def distanceToBoundary : ZoR F → Point F → F
  | neighbor, _ => 0
  | circle center radius, p =>
      let d := p.distanceFromPoint center
      if radius < d then d - radius else 0
  | polygon vertices, p => polygonDistance vertices p
  | composite components, p => distanceToAny components p Arith.inf

def distanceToAny : List (ZoR F) → Point F → F → F
  | [], _, minDist => minDist
  | z :: zs, p, minDist => distanceToAny zs p (stdMin minDist (z.distanceToBoundary p))

end

mutual

def coveredBy : ZoR F → Point F → F → Bool
  | neighbor, _, _ => false
  | circle center radius, c, r => c.distanceFromPoint center ≤ radius + r
  | polygon vertices, c, r =>
      polygonContains vertices c || decide (polygonDistance vertices c ≤ r)
  | composite components, c, r => coveredByAny components c r

def coveredByAny : List (ZoR F) → Point F → F → Bool
  | [], _, _ => false
  | z :: zs, c, r => z.coveredBy c r || coveredByAny zs c r

end

/-- Every zone but the next-hop neighbourhood is handled by the geographic
forwarding of the node. -/
def IsGeographic : ZoR F → Prop
  | neighbor => False
  | _ => True

end ZoR

/-! ## Alert names -/

/-- A component of a name. The bytes of a component of the ZoR type are kept
only when they begin with no known tag, so that its decoder yields nothing. -/
inductive Component (F : Type)
  | generic (value : List UInt8)
  | zor (value : ZoR F)
  | unknownZor (value : List UInt8)
  deriving DecidableEq

namespace Component

variable {F : Type}

def isZoR : Component F → Bool
  | generic _ => false
  | zor _ => true
  | unknownZor _ => true

def toZoR : Component F → Option (ZoR F)
  | zor value => some value
  | _ => none

end Component

abbrev Name (F : Type) := List (Component F)

/-- The zone named by the last component of the ZoR type. -/
def extractZoR {F : Type} (name : Name F) : Option (ZoR F) :=
  (name.reverse.find? Component.isZoR).bind Component.toZoR

end Cafe
