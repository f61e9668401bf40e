import DahleOS.Model.Libc

/-!
# The arguments of `graphics` (`shell/graphics_parse.h`)

The caller's string may be NULL; the second component of the result is `*mode_out`.
-/

namespace DahleOS

/-- `GFXP_USAGE`, `GFXP_STATUS`, `GFXP_SET_VBE`, `GFXP_SET_VGA`, `GFXP_SET_UNKNOWN` and
`GFXP_TEST`. -/
inductive GfxAction
  | usage
  | status
  | setVbe
  | setVga
  | setUnknown
  | test
  deriving DecidableEq

/-- `gfx_streq`. -/
def gfxStreq : Str → Str → Bool
  | a :: as, b :: bs => if a = b then gfxStreq as bs else false
  | [], [] => true
  | _, _ => false

/-- `graphics_parse`. -/
def graphicsParse : Option Str → GfxAction × Option Str
  | none => (.usage, none)
  | some args =>
    if args = [] then (.usage, none)
    else if gfxStreq args (str "status") then (.status, none)
    else if gfxStreq args (str "test") then (.test, none)
    else if str "set " <+: args then
      let t := skipSpaces (args.drop 4)
      -- `*mode_out` is set before the mode is looked at
      if gfxStreq t (str "vbe") then (.setVbe, some t)
      else if gfxStreq t (str "vga") then (.setVga, some t)
      else (.setUnknown, some t)
    else (.usage, none)

end DahleOS
