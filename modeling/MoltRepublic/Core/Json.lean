import Mathlib
import MoltRepublic.Core.Text

/-! `serde_json::Value` and its compact serialization `serde_json::to_vec`. A
finite float is kept as the text that is printed for it, an object as its entries in
key order (the map behind it is a `BTreeMap`). -/

namespace Molt.Json
open Text Framing

def isNumberByte (b : UInt8) : Bool :=
  (48 ≤ b && b ≤ 57) || b == 45 || b == 46 || b == 101 || b == 43

def isFloatMark (b : UInt8) : Bool := b == 46 || b == 101

structure FloatText where
  text : List UInt8
  numeric : ∀ b ∈ text, isNumberByte b = true
  marked : ∃ b ∈ text, isFloatMark b = true

theorem FloatText.ext {s t : FloatText} (h : s.text = t.text) : s = t := by
  cases s; cases t; cases h; rfl

instance : DecidableEq FloatText := fun s t =>
  decidable_of_iff (s.text = t.text) ⟨FloatText.ext, fun h => h ▸ rfl⟩

inductive Number where
  | posInt (n : UInt64)
  /-- The negative integer `-(n + 1)`. -/
  | negInt (n : UInt64)
  | float (t : FloatText)
  deriving DecidableEq

inductive Value where
  | null
  | bool (b : Bool)
  | num (n : Number)
  | str (s : String)
  | arr (items : List Value)
  | obj (fields : List (String × Value))

namespace Value

mutual
def decEq : (v w : Value) → Decidable (v = w)
  | .null, .null => isTrue rfl
  | .bool a, .bool b => decidable_of_iff (a = b) (by simp)
  | .num a, .num b => decidable_of_iff (a = b) (by simp)
  | .str a, .str b => decidable_of_iff (a = b) (by simp)
  | .arr a, .arr b => @decidable_of_iff _ (a = b) (by simp) (decEqItems a b)
  | .obj a, .obj b => @decidable_of_iff _ (a = b) (by simp) (decEqFields a b)
  | .null, .bool _ | .null, .num _ | .null, .str _ | .null, .arr _ | .null, .obj _
  | .bool _, .null | .bool _, .num _ | .bool _, .str _ | .bool _, .arr _ | .bool _, .obj _
  | .num _, .null | .num _, .bool _ | .num _, .str _ | .num _, .arr _ | .num _, .obj _
  | .str _, .null | .str _, .bool _ | .str _, .num _ | .str _, .arr _ | .str _, .obj _
  | .arr _, .null | .arr _, .bool _ | .arr _, .num _ | .arr _, .str _ | .arr _, .obj _
  | .obj _, .null | .obj _, .bool _ | .obj _, .num _ | .obj _, .str _ | .obj _, .arr _ =>
    isFalse (by simp)
def decEqItems : (vs ws : List Value) → Decidable (vs = ws)
  | [], [] => isTrue rfl
  | [], _ :: _ | _ :: _, [] => isFalse (by simp)
  | v :: vs, w :: ws =>
    @decidable_of_iff _ (v = w ∧ vs = ws) (by simp)
      (@instDecidableAnd _ _ (decEq v w) (decEqItems vs ws))
def decEqFields : (vs ws : List (String × Value)) → Decidable (vs = ws)
  | [], [] => isTrue rfl
  | [], _ :: _ | _ :: _, [] => isFalse (by simp)
  | (k, v) :: vs, (l, w) :: ws =>
    @decidable_of_iff _ (k = l ∧ v = w ∧ vs = ws) (by simp [and_assoc])
      (@instDecidableAnd _ _ _ (@instDecidableAnd _ _ (decEq v w) (decEqFields vs ws)))
end

instance : DecidableEq Value := decEq

def get (v : Value) (key : String) : Option Value :=
  match v with
  | .obj fields => fields.lookup key
  | _ => none

def asStr : Value → Option String
  | .str s => some s
  | _ => none

def asU64 : Value → Option UInt64
  | .num (.posInt n) => some n
  | _ => none

def getStr (v : Value) (key : String) : Option String := (v.get key).bind asStr

def getU64 (v : Value) (key : String) : Option UInt64 := (v.get key).bind asU64

end Value

def decimal (n : Nat) : List UInt8 := (Nat.toDigits 10 n).map fun c => UInt8.ofNat c.toNat

def Number.bytes : Number → List UInt8
  | .posInt n => decimal n.toNat
  | .negInt n => 45 :: decimal (n.toNat + 1)
  | .float t => t.text

def hexByte (n : UInt8) : UInt8 := if n < 10 then 48 + n else 87 + n

def escapeByte (b : UInt8) : List UInt8 :=
  if b = 34 then [92, 34]
  else if b = 92 then [92, 92]
  else if b = 8 then [92, 98]
  else if b = 9 then [92, 116]
  else if b = 10 then [92, 110]
  else if b = 12 then [92, 102]
  else if b = 13 then [92, 114]
  else if b < 32 then [92, 117, 48, 48, hexByte (b / 16), hexByte (b % 16)]
  else [b]

def writeString (s : String) : List UInt8 := 34 :: (utf8 s).flatMap escapeByte ++ [34]

mutual
/-- `serde_json::to_vec`. -/
def toVec : Value → List UInt8
  | .null => [110, 117, 108, 108]
  | .bool true => [116, 114, 117, 101]
  | .bool false => [102, 97, 108, 115, 101]
  | .num n => n.bytes
  | .str s => writeString s
  | .arr [] => [91, 93]
  | .arr (v :: vs) => 91 :: (toVec v ++ writeItems vs)
  | .obj [] => [123, 125]
  | .obj ((k, v) :: fs) => 123 :: (writeString k ++ 58 :: (toVec v ++ writeFields fs))
def writeItems : List Value → List UInt8
  | [] => [93]
  | v :: vs => 44 :: (toVec v ++ writeItems vs)
def writeFields : List (String × Value) → List UInt8
  | [] => [125]
  | (k, v) :: fs => 44 :: (writeString k ++ 58 :: (toVec v ++ writeFields fs))
end

example : toVec (.obj [("op", .str "set_name"), ("value", .arr [.num (.posInt 12), .null])]) =
    utf8 "\x7b\"op\":\"set_name\",\"value\":[12,null]\x7d" := by decide

end Molt.Json
