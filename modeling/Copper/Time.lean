import Copper.Defs
import Copper.Foundation.Calendar

/-!
# Dates and times

`time.c`, over the conversion functions of the C library: `localtime_r` and `gmtime_r` are parameters, functions from a `time_t` of
some width, the seconds since the epoch, to broken-down time that may fail. `gmtime` is the one that keeps to universal time.
-/

namespace Copper

/-- The fields of `struct tm` that `cpr__fill` reads. -/
structure Tm where
  year : Int
  mon : Int
  mday : Int
  hour : Int
  min : Int
  sec : Int
  yday : Int
  deriving DecidableEq, Repr

/-- `CprDateTime`. -/
structure DateTime where
  year : Int16
  month : UInt8
  day : UInt8
  hour : UInt8
  minute : UInt8
  second : UInt8
  ms : UInt16
  yday : UInt16
  deriving DecidableEq, Repr

/-- `CPR__DT_ERR`. -/
def dtErr : DateTime := ⟨-1, 0, 0, 0, 0, 0, 0, 0⟩

/-- `cpr__fill`. -/
def fill (tm : Tm) (ms : UInt64) : DateTime where
  year := Int16.ofInt (tm.year + 1900)
  month := UInt8.ofInt (tm.mon + 1)
  day := UInt8.ofInt tm.mday
  hour := UInt8.ofInt tm.hour
  minute := UInt8.ofInt tm.min
  second := UInt8.ofInt tm.sec
  ms := (ms % 1000).toUInt16
  yday := UInt16.ofInt tm.yday

/-- A conversion function of the C library, and how many bits the `time_t` that it takes has. -/
structure TimeConversion where
  timeBits : Nat
  convert : Int → Option Tm

/-- `time_t t = cpr_ms_to_s(ms)`: what is left of the seconds in a signed type. -/
def TimeConversion.time (f : TimeConversion) (ms : UInt64) : Int := (BitVec.ofNat f.timeBits (ms / 1000).toNat).toInt

/-- `cpr_time_local`. -/
def timeLocal (localtime : TimeConversion) (ms : UInt64) : DateTime :=
  match localtime.convert (localtime.time ms) with
  | none => dtErr
  | some tm => fill tm ms

/-- `cpr_time_utc`. -/
def timeUtc (gmtimeR : TimeConversion) (ms : UInt64) : DateTime :=
  match gmtimeR.convert (gmtimeR.time ms) with
  | none => dtErr
  | some tm => fill tm ms

/-- The `time_t` of the start of the year 1900. -/
def start1900 : Int := -2208988800

/-- `gmtime_r` of the times from the year 1900 on: the exact Gregorian conversion. -/
def gmtime (t : Int) : Option Tm :=
  if t < start1900 then none
  else
    let m := Gregorian.momentAt 1900 (t - start1900).toNat
    some ⟨m.year - 1900, m.month, m.day, m.hour, m.minute, m.second, m.yday⟩

/-- Universal time, with a `time_t` of 64 bits. -/
def gmtime64 : TimeConversion := ⟨64, gmtime⟩

/-- A conversion that always fails. -/
def noTime : TimeConversion := ⟨64, fun _ => none⟩

end Copper
