import Mathlib.Tactic
import Teensy3.Lib.RegProgram

/-!
# The driver of the SD card

`sdhctst/SDHC.cpp` drives the SDHC module of the processor by polling: `disk_initialize` identifies
the card, and `disk_read` sends a read command and reads the words of the blocks from the data port
of the module.  The functions are programs that access the registers of the module; the pins and the
clock gate, the messages on the serial line and the pin that is toggled for an oscilloscope have no
part in what is read.

* `Reg`, and the masks of the fields of the registers under `Irqstat`, `Prsstat`, `Xfertyp`, …;
* `Command`, `xfertyp`, `sendCommand`: one command transaction;
* `sdhcInit`, `ioctlInit`, `ioctlGetCard`, `ioctlSetBusWidth`, `diskInitialize`: the identification,
  with the clock and the rate of `K60_SDHC0_init` (or of any other `InitStruct`);
* `rcvrDatablock`, `diskRead`: reading.

Each access has a `Point`, so that conditions on when something happens can be stated.
-/

namespace Sdhc

open RegProgram RegProgram.Prog

/-! ### Registers -/

abbrev Word := BitVec 32

/-- The registers of the module. -/
inductive Reg
  | dsaddr
  | blkattr
  | cmdarg
  | xfertyp
  | cmdrsp (i : Fin 4)
  | datport
  | prsstat
  | proctl
  | sysctl
  | irqstat
  | irqstaten
  | wml
  | vendor
  deriving DecidableEq, Repr

/-! Fields of `SDHC_IRQSTAT` and `SDHC_IRQSTATEN` -/

def Irqstat.cc : Word := 0x1
def Irqstat.tc : Word := 0x2
def Irqstat.bwr : Word := 0x10
def Irqstat.brr : Word := 0x20
def Irqstat.crm : Word := 0x80
def Irqstat.ctoe : Word := 0x10000
def Irqstat.cce : Word := 0x20000
def Irqstat.cebe : Word := 0x40000
def Irqstat.cie : Word := 0x80000
def Irqstat.dtoe : Word := 0x100000
def Irqstat.dce : Word := 0x200000
def Irqstat.debe : Word := 0x400000

/-- The errors of a data transfer. -/
def Irqstat.dataErrors : Word := debe ||| dce ||| dtoe

/-! Fields of `SDHC_PRSSTAT` -/

def Prsstat.cihb : Word := 0x1
def Prsstat.cdihb : Word := 0x2
def Prsstat.dla : Word := 0x4
def Prsstat.sdstb : Word := 0x8
def Prsstat.wta : Word := 0x100
def Prsstat.rta : Word := 0x200
def Prsstat.bren : Word := 0x800
def Prsstat.cins : Word := 0x10000

/-! Fields of `SDHC_XFERTYP` -/

def Xfertyp.bcen : Word := 0x2
def Xfertyp.dtdsel : Word := 0x10
def Xfertyp.msbsel : Word := 0x20
def Xfertyp.rsptypMask : Word := 0x30000
def Xfertyp.cccen : Word := 0x80000
def Xfertyp.cicen : Word := 0x100000
def Xfertyp.dpsel : Word := 0x200000
def Xfertyp.cmdtypMask : Word := 0xC00000
def Xfertyp.rsptyp (x : Word) : Word := (x <<< 16) &&& rsptypMask
def Xfertyp.cmdtyp (x : Word) : Word := (x <<< 22) &&& cmdtypMask
def Xfertyp.cmdinx (x : Word) : Word := (x <<< 24) &&& 0x3F000000

/-! `ESDHC_XFERTYP_RSPTYP_NO`, `_136`, `_48` and `_48BUSY` in their place -/

def Xfertyp.rspNo : Word := rsptyp 0
def Xfertyp.rsp136 : Word := rsptyp 1
def Xfertyp.rsp48 : Word := rsptyp 2
def Xfertyp.rsp48busy : Word := rsptyp 3

/-! Fields of `SDHC_BLKATTR`, `SDHC_SYSCTL`, `SDHC_PROCTL` and `SDHC_WML` -/

def Blkattr.blkcntMask : Word := 0xFFFF0000
def Blkattr.blkcnt (x : Word) : Word := (x <<< 16) &&& blkcntMask
def Blkattr.blksize (x : Word) : Word := x &&& 0x1FFF
def Sysctl.sdclken : Word := 0x8
def Sysctl.dvsMask : Word := 0xF0
def Sysctl.dvs (x : Word) : Word := (x <<< 4) &&& dvsMask
def Sysctl.sdclkfsMask : Word := 0xFF00
def Sysctl.sdclkfs (x : Word) : Word := (x <<< 8) &&& sdclkfsMask
def Sysctl.dtocvMask : Word := 0xF0000
def Sysctl.dtocv (x : Word) : Word := (x <<< 16) &&& dtocvMask
def Sysctl.rsta : Word := 0x1000000
def Sysctl.inita : Word := 0x8000000
def Proctl.dtwMask : Word := 0x6
def Proctl.dtw (x : Word) : Word := (x <<< 1) &&& dtwMask
def Proctl.d3cd : Word := 0x8
def Proctl.emode (x : Word) : Word := (x <<< 4) &&& 0x30
def Wml.rdwml (x : Word) : Word := x &&& 0xFF
def Wml.wrwml (x : Word) : Word := (x <<< 16) &&& 0xFF0000

/-! ### Points -/

/-- The accesses of `SDHC_send_command`. -/
inductive SendPoint
  /-- `SDHC_IRQSTAT |= SDHC_IRQSTAT_CRM_MASK`, before its read and before its write -/
  | crmRead
  | crmWrite
  /-- `while (SDHC_PRSSTAT & SDHC_PRSSTAT_CIHB_MASK){}` -/
  | idle
  /-- the other registers, before the command is issued -/
  | setup
  /-- `SDHC_XFERTYP = xfertyp` -/
  | issue
  /-- `SDHC_status_wait` -/
  | response
  /-- the `|=` that ends a transaction with an error -/
  | failRead
  | failWrite
  /-- `SDHC_IRQSTAT & SDHC_IRQSTAT_CRM_MASK` -/
  | removal
  /-- `SDHC_IRQSTAT & SDHC_IRQSTAT_CTOE_MASK` -/
  | timeout
  /-- `SDHC_CMDRSP0`, … -/
  | cmdrsp
  /-- `SDHC_IRQSTAT |= SDHC_IRQSTAT_CC_MASK`, which ends it without one -/
  | ccRead
  | ccWrite
  deriving DecidableEq, Repr

/-- The accesses of `rcvr_datablock`; `j` counts the words of a block, down to 1, and `left` the
further tries of a wait. -/
inductive RcvrPoint
  | dla (left : ℕ)
  /-- `SDHC_IRQSTAT & (… DEBE … DCE … DTOE …)` -/
  | check (j : ℕ)
  | failRead
  | failWrite
  | bren (j left : ℕ)
  /-- `*ptr++ = SDHC_DATPORT` -/
  | data (j : ℕ)
  /-- `while (!(SDHC_IRQSTAT & SDHC_IRQSTAT_TC_MASK))` -/
  | complete
  /-- `SDHC_IRQSTAT = …` -/
  | reset
  deriving DecidableEq, Repr

/-- Where the driver is. -/
inductive Point
  | send (p : SendPoint)
  | rcvr (p : RcvrPoint)
  | ioctl
  deriving DecidableEq, Repr

/-- A function of the driver with results in `α`. -/
abbrev Driver (α : Type) := Prog Point Reg Word α

/-! ### Commands -/

/-- `INT32U RESPONSE[4]` -/
structure Response where
  r0 : Word
  r1 : Word
  r2 : Word
  r3 : Word
  deriving DecidableEq, Repr, Inhabited

/-- `ESDHC_TYPE_NORMAL`, … -/
inductive CommandType
  | normal
  | suspend
  | resume
  | abort
  | switchBusy
  deriving DecidableEq, Repr

def CommandType.code : CommandType → Word
  | normal => 0
  | suspend => 1
  | resume => 2
  | abort => 3
  | switchBusy => 4

/-- `ESDHC_COMMAND_STRUCT` -/
structure Command where
  command : BitVec 8
  type : CommandType := .normal
  argument : Word
  read : Bool := false
  blocks : Word := 0
  response : Response
  deriving DecidableEq, Repr

/-- An entry for a command without a response. -/
def Xfertyp.plain (n : Word) : Word := cmdinx n ||| rspNo

/-- An entry with the checks `CICEN` and `CCCEN`, for a response of the given kind. -/
def Xfertyp.checked (n rsp : Word) : Word := cmdinx n ||| cicen ||| cccen ||| rsp

open Xfertyp in
/-- `ESDHC_COMMAND_XFERTYP` -/
def commandXfertyp : List Word :=
  [ -- CMD0
    plain 0, plain 1, cmdinx 2 ||| cccen ||| rsp136, checked 3 rsp48, plain 4,
    -- CMD5
    cmdinx 5 ||| rsp48, checked 6 rsp48, checked 7 rsp48busy, checked 8 rsp48,
    cmdinx 9 ||| cccen ||| rsp136,
    -- CMD10
    cmdinx 10 ||| cccen ||| rsp136, checked 11 rsp48, cmdtyp 3 ||| checked 12 rsp48busy,
    checked 13 rsp48, 0,
    -- CMD15
    plain 15, checked 16 rsp48, checked 17 rsp48, checked 18 rsp48, 0,
    -- CMD20
    checked 20 rsp48, 0, checked (0x40 + 22) rsp48, checked (0x40 + 23) rsp48, checked 24 rsp48,
    -- CMD25
    checked 25 rsp48, checked 26 rsp48, checked 27 rsp48, checked 28 rsp48busy,
    checked 29 rsp48busy,
    -- CMD30
    checked 30 rsp48, 0, checked 32 rsp48, checked 33 rsp48, checked 34 rsp48,
    -- CMD35
    checked 35 rsp48, checked 36 rsp48, checked 37 rsp48, checked 38 rsp48busy,
    cmdinx 39 ||| rsp48,
    -- CMD40
    checked 40 rsp48, cmdinx (0x40 + 41) ||| rsp48, checked 42 rsp48busy, 0, 0,
    -- CMD45
    0, 0, 0, 0, 0,
    -- CMD50
    0, checked (0x40 + 51) rsp48, checked 52 rsp48, checked 53 rsp48, 0,
    -- CMD55
    checked 55 rsp48, checked 56 rsp48busy, 0, 0, 0,
    -- CMD60
    checked 60 rsp48busy, checked 61 rsp48busy, 0, 0 ]

/-- `ESDHC_COMMAND_XFERTYP[command->COMMAND & 0x3F]` -/
def Command.entry (c : Command) : Word := commandXfertyp.getD (c.command &&& 0x3F).toNat 0

open Xfertyp in
/-- The transfer type of a command without the part for its blocks. -/
def Command.typed (c : Command) : Word :=
  let x := (c.entry &&& ~~~cmdtypMask) ||| cmdtyp c.type.code
  let x := if c.type = .resume then x ||| dpsel else x
  if c.type = .switchBusy then
    if x &&& rsptypMask = rsp48 then (x &&& ~~~rsptypMask) ||| rsp48busy
    else (x &&& ~~~rsptypMask) ||| rsp48
  else x

open Xfertyp in
/-- What is written to `SDHC_XFERTYP`. -/
def Command.xfertyp (c : Command) : Word :=
  let x := c.typed
  if c.blocks = 0 then x
  else
    let x := if x &&& rsptypMask ≠ rsp48busy then x ||| dpsel else x
    let x := if c.read then x ||| dtdsel else x
    let x := if 1 < c.blocks then x ||| msbsel else x
    if c.blocks ≠ -1 then x ||| bcen else x

/-- `SDHC_IRQSTAT |= m` -/
def orIrqstat (p q : SendPoint) (m : Word) : Driver Unit :=
  update (.send p) (.send q) .irqstat (· ||| m)

/-- `SDHC_BLKATTR |= SDHC_BLKATTR_BLKCNT(command->BLOCKS)`, if there is a number of blocks. -/
def setBlkcnt (c : Command) : Driver Unit :=
  if c.blocks ≠ 0 ∧ c.blocks ≠ -1 then
    update (.send .setup) (.send .setup) .blkattr (· ||| Blkattr.blkcnt c.blocks)
  else pure ()

/-- `SDHC_send_command` up to the issue of the command. -/
def issue (c : Command) : Driver Unit := do
  orIrqstat .crmRead .crmWrite Irqstat.crm
  let _ ← await (.send .idle) .prsstat fun s => s &&& Prsstat.cihb == 0
  store (.send .setup) .cmdarg c.argument
  update (.send .setup) (.send .setup) .blkattr (· &&& ~~~Blkattr.blkcntMask)
  setBlkcnt c
  store (.send .setup) .dsaddr 0
  store (.send .issue) .xfertyp c.xfertyp

/-- `Get response, if available`. -/
def getResponse (c : Command) : Driver Response := do
  if c.xfertyp &&& Xfertyp.rsptypMask = Xfertyp.rspNo then return c.response
  let r0 ← load (.send .cmdrsp) (.cmdrsp 0)
  if c.xfertyp &&& Xfertyp.rsptypMask ≠ Xfertyp.rsp136 then return { c.response with r0 }
  let r1 ← load (.send .cmdrsp) (.cmdrsp 1)
  let r2 ← load (.send .cmdrsp) (.cmdrsp 2)
  let r3 ← load (.send .cmdrsp) (.cmdrsp 3)
  return ⟨r0, r1, r2, r3⟩

open Irqstat in
/-- `SDHC_send_command` from the issue of the command on: 0 on success, 1 on error, -1 on
timeout. -/
def complete (c : Command) : Driver (ℤ × Command) := do
  let result ← await (.send .response) .irqstat fun s => s &&& (cie ||| cebe ||| cce ||| cc) != 0
  if result &&& (cie ||| cebe ||| cce ||| cc) ≠ cc then
    orIrqstat .failRead .failWrite (ctoe ||| cie ||| cebe ||| cce ||| cc)
    return (1, c)
  -- card removal
  let s ← load (.send .removal) .irqstat
  if s &&& crm ≠ 0 then
    orIrqstat .failRead .failWrite (ctoe ||| cc)
    return (1, c)
  let s ← load (.send .timeout) .irqstat
  if s &&& ctoe ≠ 0 then
    orIrqstat .failRead .failWrite (ctoe ||| cc)
    return (-1, c)
  let response ← getResponse c
  orIrqstat .ccRead .ccWrite cc
  return (0, { c with response })

/-- `SDHC_send_command` -/
def sendCommand (c : Command) : Driver (ℤ × Command) := do
  if c.entry = 0 ∧ c.command ≠ 0 then return (1, c)
  issue c
  complete c

/-! ### The state of the driver -/

/-- `ESDHC_CARD_NONE`, … -/
inductive CardType
  | none
  | unknown
  | sd
  | sdhc
  | sdio
  | sdcombo
  | sdhccombo
  | mmc
  | ceata
  deriving DecidableEq, Repr

/-- `ESDHC_OK`, `ESDHC_ERROR_INIT_FAILED`, … -/
inductive Result
  | ok
  | initFailed
  | commandFailed
  | commandTimeout
  | invalidBusWidth
  | deviceBusy
  | deviceInvalid
  | dataTransfer
  | invalidParameter
  | invalidIoctlCmd
  deriving DecidableEq, Repr

/-- `DRESULT` -/
inductive DResult
  | ok
  | error
  | wrprt
  | notrdy
  | parerr
  deriving DecidableEq, Repr

/-- The fields of `SDHC_Card` that the identification finds out. -/
structure SdCard where
  numBlocks : Word
  sdhcx : Bool
  version2 : Bool
  address : Word
  deriving DecidableEq, Repr

/-- The variables of the driver: `Stat`, whether `SDHC_Device.INIT` has been set, `SDHC_Info.CARD`
and `SDHC_Card`. -/
structure Disk where
  stat : Word
  init : Bool
  card : CardType
  sdcard : SdCard
  deriving DecidableEq, Repr

/-- `STA_NOINIT` -/
def staNoinit : Word := 0x01

/-- `STA_NODISK` -/
def staNodisk : Word := 0x02

/-! ### Identification -/

/-- The search of `SDHC_set_baudrate` for the divisors: `val` is the difference as a signed number,
and it is compared with the unsigned `min`. -/
def closest (clock baudrate : Word) : Word × Word :=
  let settings := (List.range 8).flatMap fun i => (List.range 16).map fun j =>
    ((2 : Word) <<< i, (.ofNat 32 (j + 1) : Word))
  let best := settings.foldl (fun (best : Word × Word × Word) s =>
    let val := s.1 * s.2 * baudrate - clock
    if 0 ≤ val.toInt ∧ val < best.1 then (val, s.1, s.2) else best) (-1, 0x80, 0x0F)
  best.2

open Sysctl in
/-- `SDHC_set_baudrate` -/
def setBaudrate (clock baudrate : Word) : Driver Unit := do
  let s := closest clock baudrate
  update .ioctl .ioctl .sysctl (· &&& ~~~sdclken)
  let div ← load .ioctl .sysctl
  let div := div &&& ~~~(dtocvMask ||| sdclkfsMask ||| dvsMask)
  store .ioctl .sysctl (div ||| (dtocv 0x0E ||| sdclkfs (s.1 >>> 1) ||| dvs (s.2 - 1)))
  let _ ← await .ioctl .prsstat fun s => s &&& Prsstat.sdstb != 0
  update .ioctl .ioctl .sysctl (· ||| sdclken)
  update .ioctl .ioctl .irqstat (· ||| Irqstat.dtoe)

/-- `BSP_SYSTEM_CLOCK`, the `CLOCK_SPEED` of `K60_SDHC0_init` -/
def clockSpeed : Word := 120000000

/-- The `BAUD_RATE` of `K60_SDHC0_init` -/
def baudRate : Word := 40000000

/-- `ESDHC_INIT_STRUCT` without the number of the device -/
structure InitStruct where
  baudRate : Word
  clockSpeed : Word

/-- `K60_SDHC0_init` -/
def k60Sdhc0Init : InitStruct := ⟨baudRate, clockSpeed⟩

/-- `80 initial clocks` -/
def initialClocks : Driver Unit := do
  update .ioctl .ioctl .sysctl (· ||| Sysctl.inita)
  let _ ← await .ioctl .sysctl fun s => s &&& Sysctl.inita == 0
  pure ()

open Irqstat in
/-- `SDHC_init`, which sets `CARD` and always returns `ESDHC_OK`. -/
def sdhcInitWith (init : InitStruct) : Driver CardType := do
  store .ioctl .sysctl (Sysctl.rsta ||| Sysctl.sdclkfs 0x80)
  let _ ← await .ioctl .sysctl fun s => s &&& Sysctl.rsta == 0
  store .ioctl .vendor 0
  store .ioctl .blkattr (Blkattr.blkcnt 1 ||| Blkattr.blksize 512)
  store .ioctl .proctl (Proctl.emode 2 ||| Proctl.d3cd)
  store .ioctl .wml (Wml.rdwml 1 ||| Wml.wrwml 1)
  setBaudrate init.clockSpeed 380000
  let _ ← await .ioctl .prsstat fun s => s &&& (Prsstat.cihb ||| Prsstat.cdihb) == 0
  store .ioctl .irqstat 0xFFFF
  store .ioctl .irqstaten
    (debe ||| dce ||| dtoe ||| cie ||| cebe ||| cce ||| ctoe ||| brr ||| bwr ||| crm ||| tc ||| cc)
  initialClocks
  let s ← load .ioctl .prsstat
  let card := if s &&& Prsstat.cins ≠ 0 then CardType.unknown else .none
  update .ioctl .ioctl .irqstat (· ||| crm)
  return card

def sdhcInit : Driver CardType := sdhcInitWith k60Sdhc0Init

/-- What `SDHC_ioctl` sets `CARD` to. -/
def CardType.detected (mem io mmc ceata hc : Bool) (card : CardType) : CardType :=
  let card := if mmc then .mmc else card
  let card := if ceata then .ceata else card
  let card := if io then .sdio else card
  let card := if mem then (if hc then .sdhc else .sd) else card
  if io && mem then (if hc then .sdhccombo else .sdcombo) else card

/-- `BSP_ALARM_FREQUENCY` -/
def alarmFrequency : ℕ := 100

/-- The loop that waits for the card to be powered up, with the number of rounds made; `none` when a
command fails.  As there are at most `alarmFrequency` rounds, `fuel` does not run out before. -/
def sendOcr (hc : Bool) : (fuel val : ℕ) → Command → Driver (Option (ℕ × Command))
  | 0, val, c => return some (val, c)
  | fuel + 1, val, c => do
    let val := val + 1
    let r ← sendCommand { c with command := 55, argument := 0 }
    if r.1 ≠ 0 then return none
    let r ← sendCommand
      { r.2 with command := 0x40 + 41, argument := if hc then 0x40300000 else 0x00300000 }
    if r.1 ≠ 0 then return none
    if r.2.response.r0 &&& 0x80000000 = 0 ∧ val < alarmFrequency then sendOcr hc fuel val r.2
    else return some (val, r.2)

/-- The part of `IO_IOCTL_ESDHC_INIT` for SD cards: whether the card is a memory card, and whether
it has a high capacity. -/
def detectSd (hc : Bool) (c : Command) : Driver (Option (Bool × Bool)) := do
  let r ← sendCommand { c with command := 0x40 + 41, argument := 0 }
  if r.1 ≠ 0 then return none
  if r.2.response.r0 &&& 0x300000 = 0 then return some (false, hc)
  let loop ← sendOcr hc alarmFrequency 0 r.2
  match loop with
  | none => return none
  | some (val, c) =>
    if alarmFrequency ≤ val then return some (false, false)
    return some (true, hc && (c.response.r0 &&& 0x40000000 != 0))

/-- `0xCE == (command.RESPONSE[0] >> 8) & 0xFF`, in which `==` binds more tightly than `&`. -/
def hasSignature (s : Word) (r : Response) : Bool := s == r.r0 >>> 8

/-- The part of `IO_IOCTL_ESDHC_INIT` for MMC and CE-ATA: whether the card is an MMC and whether it
is CE-ATA.  `CMD1` has no response, so `hc` comes from the one before; nothing uses it. -/
def detectMmc (c : Command) : Driver (Option (Bool × Bool)) := do
  let r ← sendCommand { c with command := 1, argument := 0x40300000 }
  if r.1 ≠ 0 then return none
  let r ← sendCommand { r.2 with command := 39, argument := 0x0C00 }
  if r.1 ≠ 0 then return none
  if !hasSignature 0xCE r.2.response then return some (true, false)
  let r ← sendCommand { r.2 with command := 39, argument := 0x0D00 }
  if r.1 ≠ 0 then return none
  if hasSignature 0xAA r.2.response then return some (false, true)
  return some (true, false)

/-- `SDHC_ioctl` with `IO_IOCTL_ESDHC_INIT`; `junk` is what its variable `command` has at first. -/
def ioctlInitWith (init : InitStruct) (g : Disk) (junk : Response) : Driver (Result × Disk) := do
  if !g.init then return (.deviceInvalid, g)
  let card ← sdhcInitWith init
  let g := { g with card }
  let r ← sendCommand { command := 0, argument := 0, response := junk }
  if r.1 ≠ 0 then return (.initFailed, g)
  let r ← sendCommand { r.2 with command := 8, argument := 0x1AA }
  if r.1 = 0 ∧ r.2.response.r0 ≠ r.2.argument then return (.initFailed, g)
  let hc := r.1 == 0
  let r ← sendCommand { r.2 with command := 55, argument := 0 }
  if 0 < r.1 then return (.initFailed, g)
  if r.1 < 0 then
    let kind ← detectMmc r.2
    match kind with
    | none => return (.initFailed, g)
    | some (mmc, ceata) =>
      setBaudrate init.clockSpeed init.baudRate
      return (.ok, { g with card := card.detected false false mmc ceata false })
  else
    let kind ← detectSd hc r.2
    match kind with
    | none => return (.initFailed, g)
    | some (mem, hc) =>
      setBaudrate init.clockSpeed init.baudRate
      return (.ok, { g with card := card.detected mem false false false hc })

def ioctlInit (g : Disk) (junk : Response) : Driver (Result × Disk) :=
  ioctlInitWith k60Sdhc0Init g junk

/-- `SDHC_ioctl` with `IO_IOCTL_ESDHC_SEND_COMMAND` -/
def ioctlSendCommand (g : Disk) (c : Command) : Driver (Result × Command) := do
  if !g.init then return (.deviceInvalid, c)
  let r ← sendCommand c
  if 0 < r.1 then return (.commandFailed, r.2)
  if r.1 < 0 then return (.commandTimeout, r.2)
  return (.ok, r.2)

/-- `SDHC_ioctl` with `IO_IOCTL_ESDHC_GET_CARD`, with the value of the parameter in `CARD`. -/
def ioctlGetCard (g : Disk) : Driver (Result × Disk) := do
  if !g.init then return (.deviceInvalid, g)
  initialClocks
  let s ← load .ioctl .irqstat
  if s &&& Irqstat.crm ≠ 0 then
    update .ioctl .ioctl .irqstat (· ||| Irqstat.crm)
    let s ← load .ioctl .prsstat
    return (.ok, { g with card := if s &&& Prsstat.cins ≠ 0 then .unknown else .none })
  let s ← load .ioctl .prsstat
  if s &&& Prsstat.cins = 0 then return (.ok, { g with card := .none })
  return (.ok, if g.card = .none then { g with card := .unknown } else g)

open Prsstat in
/-- `SDHC_is_running` -/
def isRunning : Driver Bool := do
  let s ← load .ioctl .prsstat
  return s &&& (rta ||| wta ||| dla ||| cdihb ||| cihb) != 0

/-- `SDHC_ioctl` with `IO_IOCTL_ESDHC_SET_BUS_WIDTH` -/
def ioctlSetBusWidth (g : Disk) (width : Word) : Driver Result := do
  if !g.init then return .deviceInvalid
  let running ← isRunning
  if running then return .deviceBusy
  -- `ESDHC_PROCTL_DTW_8BIT` is 0x10
  let dtw : Option Word :=
    if width = 0 then some 0 else if width = 1 then some 1 else if width = 2 then some 0x10 else none
  match dtw with
  | none => return .invalidBusWidth
  | some x =>
    update .ioctl .ioctl .proctl (· &&& ~~~Proctl.dtwMask)
    update .ioctl .ioctl .proctl (· ||| Proctl.dtw x)
    return .ok

/-- `NUM_BLOCKS` of a card of version 1.  The shift by `read_bl_len - 9` is one by more than 31, with
the result 0, when the length is less than 9. -/
def numBlocksV1 (r : Response) : Word :=
  let readBlLen := (r.r2 >>> 8) &&& 0x0F
  let cSize := ((r.r2 &&& 0x03) <<< 10) ||| (r.r1 >>> 22)
  let cSizeMult := (r.r1 >>> 7) &&& 0x07
  (cSize + 1) * ((1 : Word) <<< (cSizeMult + 2)) * ((1 : Word) <<< (readBlLen - 9))

/-- `NUM_BLOCKS` of a card of version 2 -/
def numBlocksV2 (r : Response) : Word := (((r.r1 >>> 8) &&& 0x003FFFFF) + 1) <<< 10

/-- What `disk_initialize` stores of the response to `CMD9`. -/
def SdCard.withCsd (s : SdCard) (r : Response) : SdCard :=
  if r.r3 &&& 0x00C00000 = 0 then { s with numBlocks := numBlocksV1 r }
  else { s with version2 := true, numBlocks := numBlocksV2 r }

/-- A call of `disk_initialize` from the select command on. -/
def selectCard (g : Disk) (c : Command) : Driver (BitVec 8 × Disk) := do
  let r ← ioctlSendCommand g { c with command := 7, argument := g.sdcard.address }
  if r.1 ≠ .ok then return (0, g)
  let r ← ioctlSendCommand g { r.2 with command := 16, argument := 512 }
  if r.1 ≠ .ok then return (0, g)
  let r ← ioctlSendCommand g { r.2 with command := 55, argument := g.sdcard.address }
  if r.1 ≠ .ok then return (0, g)
  let r ← ioctlSendCommand g { r.2 with command := 0x40 + 6, argument := 2 }
  if r.1 ≠ .ok then return (0, g)
  let result ← ioctlSetBusWidth g 1
  if result ≠ .ok then return (0, g)
  let g := { g with stat := g.stat &&& ~~~staNoinit }
  return ((g.stat &&& 0x03).setWidth 8, g)

/-- A call of `disk_initialize` from the identify command on. -/
def identifyCard (g : Disk) (junk : Response) : Driver (BitVec 8 × Disk) := do
  let r ← ioctlSendCommand g { command := 2, argument := 0, response := junk }
  if r.1 ≠ .ok then return (0, g)
  let r ← ioctlSendCommand g { r.2 with command := 3, argument := 0 }
  if r.1 ≠ .ok then return (0, g)
  let g := { g with sdcard.address := r.2.response.r0 &&& 0xFFFF0000 }
  let r ← ioctlSendCommand g { r.2 with command := 9, argument := g.sdcard.address }
  if r.1 ≠ .ok then return (0, g)
  selectCard { g with sdcard := g.sdcard.withCsd r.2.response } r.2

/-- `disk_initialize`; `junk` is what the variable `command` of `SDHC_ioctl` has at first, and
`junk'` the one of `disk_initialize`. -/
def diskInitialize (g : Disk) (drv : BitVec 8) (junk junk' : Response) :
    Driver (BitVec 8 × Disk) := do
  if drv ≠ 0 then return (staNoinit.setWidth 8, g)
  if g.stat &&& staNodisk ≠ 0 then return (g.stat.setWidth 8, g)
  if g.stat &&& 0x03 = 0 then return (0, g)
  let r ← ioctlInit { g with init := true, sdcard := ⟨0, false, false, 0⟩ } junk
  if r.1 ≠ .ok then return (0, r.2)
  let r ← ioctlGetCard r.2
  if r.1 ≠ .ok then return (0, r.2)
  let g := r.2
  if g.card = .sd ∨ g.card = .sdcombo then identifyCard g junk'
  else if g.card = .sdhc ∨ g.card = .sdhccombo then
    identifyCard { g with sdcard.sdhcx := true } junk'
  else return (0, g)

/-! ### Reading -/

/-- `400*120` -/
def maxTries : ℕ := 400 * 120

/-- The loop over the words of a block, with the words stored so far; the result is false when the
function returns 0. -/
def rcvrWords : (j : ℕ) → List Word → Driver (Bool × List Word)
  | 0, buff => return (true, buff)
  | j + 1, buff => do
    let s ← load (.rcvr (.check (j + 1))) .irqstat
    if s &&& Irqstat.dataErrors ≠ 0 then
      update (.rcvr .failRead) (.rcvr .failWrite) .irqstat (· ||| (Irqstat.dataErrors ||| Irqstat.brr))
      return (false, buff)
    let ready ← awaitFor (fun left => .rcvr (.bren (j + 1) left)) .prsstat
      (fun s => s &&& Prsstat.bren != 0) maxTries
    if !ready then return (false, buff)
    let word ← load (.rcvr (.data (j + 1))) .datport
    rcvrWords j (buff ++ [word])

/-- The loop over the blocks.  A round takes at least one byte, so that `fuel` does not run out
before the bytes do. -/
def rcvrBlocks : (fuel bytes : ℕ) → List Word → Driver (Bool × List Word)
  | 0, _, buff => return (true, buff)
  | fuel + 1, bytes, buff => do
    if bytes = 0 then return (true, buff)
    let ready ← awaitFor (fun left => .rcvr (.dla left)) .prsstat
      (fun s => s &&& Prsstat.dla == 0) maxTries
    if !ready then return (false, buff)
    let i := if 512 < bytes then 512 else bytes
    let r ← rcvrWords ((i + 3) >>> 2) buff
    if !r.1 then return r
    let _ ← await (.rcvr .complete) .irqstat fun s => s &&& Irqstat.tc != 0
    store (.rcvr .reset) .irqstat (Irqstat.tc ||| Irqstat.bwr)
    rcvrBlocks fuel (bytes - i) r.2

/-- `rcvr_datablock`, with the words that are stored from `buff` on. -/
def rcvrDatablock (btr : ℕ) : Driver (Bool × List Word) := rcvrBlocks btr btr []

/-- `disk_read`, with the words that are stored from `buff` on; `buff` says whether the pointer is
not `NULL`. -/
def diskRead (g : Disk) (drv : BitVec 8) (buff : Bool) (sector : Word) (count : BitVec 8) :
    Driver (DResult × List Word) := do
  if drv ≠ 0 ∨ count = 0 then return (.parerr, [])
  if g.stat &&& staNoinit ≠ 0 then return (.notrdy, [])
  if !buff then return (.error, [])
  let sector := if g.sdcard.sdhcx then sector else sector * 512
  if count = 1 then
    let r ← ioctlSendCommand g
      { command := 17, argument := sector, read := true, blocks := count.setWidth 32
        response := default }
    if r.1 ≠ .ok then return (.error, [])
    let r ← rcvrDatablock 512
    return (if r.1 then .ok else .error, r.2)
  else
    let r ← ioctlSendCommand g
      { command := 18, argument := sector, read := true, blocks := count.setWidth 32
        response := default }
    let r ← if r.1 = .ok then rcvrDatablock (512 * count.toNat) else pure (false, [])
    let _ ← ioctlSendCommand g { command := 12, argument := 0, read := true, response := default }
    return (if r.1 then .ok else .error, r.2)

/-! ### Calls on an initialised card -/

/-- The card has been initialised. -/
def Disk.Ready (g : Disk) : Prop := g.stat &&& staNoinit = 0 ∧ g.init = true

/-- An initialised card of high capacity. -/
def anyDisk : Disk := ⟨0, true, .sdhc, ⟨0, true, true, 0x12340000⟩⟩

theorem anyDisk_ready : anyDisk.Ready := ⟨by decide, rfl⟩

/-- The address of a sector: a block on a card of high capacity, a byte on others. -/
def Disk.addressOf (g : Disk) (sector : Word) : Word :=
  if g.sdcard.sdhcx then sector else sector * 512

/-- The command of `disk_read`. -/
def readCommand (command : BitVec 8) (argument : Word) (count : BitVec 8) : Command where
  command := command
  argument := argument
  read := true
  blocks := count.setWidth 32
  response := default

/-- The responses are read with any assertion that this keeps. -/
theorem safe_getResponse {E W : Type} {d : Device Reg Word E W} {C : Point → W → Step Word E → Prop}
    {J : Point → W → Prop} {K : Point → Reg → (Word → Bool) → W → Prop} (I : W → Prop)
    (hev : ∀ w e, I w → C (.send .cmdrsp) w (.event e) → I (d.onEvent e w))
    (hJ : ∀ w, I w → J (.send .cmdrsp) w) (hread : ∀ w i v, I w → I (d.onRead (.cmdrsp i) v w))
    (c : Command) {w : W} (h : I w) : Safe d C J K (fun _ w => I w) (getResponse c) w := by
  have hnext : ∀ {i : Fin 4} {k : Word → Driver Response} {w : W}, I w →
      (∀ v w, I w → Safe d C J K (fun _ w => I w) (k v) w) →
      Safe d C J K (fun _ w => I w) (.read (.send .cmdrsp) (.cmdrsp i) k) w :=
    fun hw hk => safe_read I hw hev hJ fun w _ h _ => hk _ _ (hread w _ _ h)
  simp only [getResponse, bind_eq, pure_eq, load_bind]
  split
  · exact h
  refine hnext h fun r0 w h => ?_
  split
  · exact h
  refine hnext h fun r1 w h => hnext h fun r2 w h => hnext h fun r3 w h => ?_
  exact h

/-- The result of `IO_IOCTL_ESDHC_SEND_COMMAND` for the value of `SDHC_send_command`. -/
def Result.ofVal (val : ℤ) : Result :=
  if 0 < val then .commandFailed else if val < 0 then .commandTimeout else .ok

@[simp] theorem Result.ofVal_eq_ok {val : ℤ} : ofVal val = .ok ↔ val = 0 := by
  unfold ofVal
  split_ifs with h h'
  · simpa using h.ne'
  · simpa using h'.ne
  · simpa using le_antisymm (not_lt.1 h) (not_lt.1 h')

theorem ioctlSendCommand_eq {g : Disk} (hg : g.init = true) (c : Command) :
    ioctlSendCommand g c = (sendCommand c).bind fun r => .done (.ofVal r.1, r.2) := by
  simp only [ioctlSendCommand, hg, Bool.not_true, Bool.false_eq_true, if_false, bind_eq, pure_eq]
  congr 1
  funext r
  unfold Result.ofVal
  split_ifs <;> rfl

/-- A single block is read when the command succeeds. -/
theorem diskRead_one {g : Disk} (hg : g.Ready) (sector : Word) :
    diskRead g 0 true sector 1 =
      (sendCommand (readCommand 17 (g.addressOf sector) 1)).bind fun r =>
        if r.1 = 0 then (rcvrDatablock 512).bind fun r => .done (if r.1 then .ok else .error, r.2)
        else .done (.error, []) := by
  simp [diskRead, hg.1, ioctlSendCommand_eq hg.2, bind_assoc, readCommand, Disk.addressOf, ite_not]

/-- Several blocks are read when the command succeeds; the transmission is stopped in any case. -/
theorem diskRead_many {g : Disk} (hg : g.Ready) (sector : Word) {count : BitVec 8} (h0 : count ≠ 0)
    (h1 : count ≠ 1) :
    diskRead g 0 true sector count =
      (sendCommand (readCommand 18 (g.addressOf sector) count)).bind fun r =>
        (if r.1 = 0 then rcvrDatablock (512 * count.toNat) else .done (false, [])).bind fun r =>
          (sendCommand { command := 12, argument := 0, read := true, response := default }).bind
            fun _ => .done (if r.1 then .ok else .error, r.2) := by
  simp only [diskRead, hg.1, ioctlSendCommand_eq hg.2, bind_eq, pure_eq, bind_assoc, done_bind,
    h0, h1, Result.ofVal_eq_ok]
  simp only [ne_eq, not_true_eq_false, or_self, if_false, Bool.not_true, Bool.false_eq_true]
  refine congrArg (Prog.bind _) (funext fun r => ?_)
  split <;> rfl

end Sdhc
