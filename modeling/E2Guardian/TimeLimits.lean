import E2Guardian.Strings

/- Time limits of lists: the #time: tag and the test against the local time. -/
namespace GuardianTime
open GuardianString

structure TimeLimit where
  sthour : Nat
  stmin : Nat
  endhour : Nat
  endmin : Nat
  days : Str
  timetag : Str
  deriving DecidableEq, Repr

structure Clock where
  hour : Nat
  min : Nat
  wday : Nat
  deriving DecidableEq, Repr

/-- `toInteger` assigned to an `unsigned int`. -/
def toUnsigned (s : Str) : Nat := (toInteger s % 2 ^ 32).toNat

def readTimeBand (tag : Str) : Option TimeLimit :=
  let temp := removeWhiteSpace tag
  let tsthour := toUnsigned (before temp (str " "))
  let temp := removeWhiteSpace (after temp (str " "))
  let tstmin := toUnsigned (before temp (str " "))
  let temp := removeWhiteSpace (after temp (str " "))
  let tendhour := toUnsigned (before temp (str " "))
  let temp := removeWhiteSpace (after temp (str " "))
  let tendmin := toUnsigned (before temp (str " "))
  let tdays := removeWhiteSpace (after temp (str " "))
  if tsthour > 23 then none
  else if tendhour > 23 then none
  else if tstmin > 59 then none
  else if tendmin > 59 then none
  else if tdays.length > 7 then none
  else some ⟨tsthour, tstmin, tendhour, tendmin, tdays, tag⟩

def readTimeTag (tag : Str) : Option TimeLimit := readTimeBand (after tag (str "#time: "))

def dayDigit (now : Clock) : UInt8 :=
  ch '0' + ((if now.wday = 0 then 7 else now.wday) - 1).toUInt8

def isNow (now : Clock) (tl : TimeLimit) : Bool :=
  if !tl.days.elem (dayDigit now) then false
  else if now.hour < tl.sthour then false
  else if now.hour > tl.endhour then false
  else if now.hour = tl.sthour ∧ now.min < tl.stmin then false
  else if now.hour = tl.endhour ∧ now.min > tl.endmin then false
  else true

def noon : Clock := ⟨12, 0, 1⟩ -- on a Monday

end GuardianTime
