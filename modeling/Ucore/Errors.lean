namespace Ucore.Errors

/-- The error codes of `libs/error.h`. -/
inductive Errno where
  | eUnspecified
  | eBadProc
  | eInval
  | eNoMem
  | eNoFreeProc
  | eFault
  | eSwapFault
  | eInvalElf
  | eKilled
  | ePanic
  | eTimeout
  | eTooBig
  | eNoDev
  | eNaDev
  | eBusy
  | eNoent
  | eIsdir
  | eNotdir
  | eXdev
  | eUnimp
  | eSeek
  | eMaxOpen
  | eExists
  | eNotempty
  deriving DecidableEq, Repr

end Ucore.Errors
