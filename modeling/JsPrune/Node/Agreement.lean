import JsPrune.Node.Basic

/-!
# Trees with the same meaning on paper

`Node.agrees` compares two trees like values of a program: everything must be the same, except that
number literals are compared as numbers, so the two zeros agree and a NaN agrees with nothing.
-/

namespace JsPrune.Node

mutual
/-- Whether two trees are alike, their numbers compared by value. -/
def agrees : Node → Node → Bool
  | .body t xs, .body u ys => t == u && agreesAll xs ys
  | .empty, .empty => true
  | .simple x, .simple y => agrees x y
  | .declaration t xs, .declaration u ys => t == u && agreesAll xs ys
  | .varDef m x, .varDef n y => m == n && agreesOption x y
  | .ifElse c x a, .ifElse d y b => agrees c d && agrees x y && agreesOption a b
  | .loop t c x, .loop u d y => t == u && agrees c d && agrees x y
  | .forLoop i c s x, .forLoop j d r y =>
    agreesOption i j && agreesOption c d && agreesOption s r && agrees x y
  | .forIn i o x, .forIn j p y => agrees i j && agrees o p && agrees x y
  | .exit t x, .exit u y => t == u && agreesOption x y
  | .jump t l, .jump u m => t == u && l == m
  | .labeled l x, .labeled m y => l == m && agrees x y
  | .switch c xs, .switch d ys => agrees c d && agreesAll xs ys
  | .case_ c xs, .case_ d ys => agrees c d && agreesAll xs ys
  | .try_ xs h f, .try_ ys i g => agreesAll xs ys && agreesOption h i && agreesOption f g
  | .catch_ p xs, .catch_ q ys => p == q && agreesAll xs ys
  | .debugger, .debugger => true
  | .lambda t m p xs, .lambda u n q ys => t == u && m == n && p == q && agreesAll xs ys
  | .call t c xs, .call u d ys => t == u && agrees c d && agreesAll xs ys
  | .sequence xs, .sequence ys => agreesAll xs ys
  | .dot x m, .dot y n => agrees x y && m == n
  | .sub x a, .sub y b => agrees x y && agrees a b
  | .unary t o x, .unary u p y => t == u && o == p && agrees x y
  | .binary t x o a, .binary u y p b => t == u && o == p && agrees x y && agrees a b
  | .conditional c x a, .conditional d y b => agrees c d && agrees x y && agrees a b
  | .array xs, .array ys => agreesAll xs ys
  | .object xs, .object ys => agreesAll xs ys
  | .property k x, .property l y => k == l && agrees x y
  | .identifier m, .identifier n => m == n
  | .number x, .number y => x.sameValue y
  | .string s, .string t => s == t
  | .boolean a, .boolean b => a == b
  | .null, .null => true
  | .this, .this => true
  | _, _ => false
termination_by structural node => node

/-- Whether two lists of trees are alike, one by one. -/
def agreesAll : List Node → List Node → Bool
  | [], [] => true
  | x :: xs, y :: ys => agrees x y && agreesAll xs ys
  | _, _ => false
termination_by structural nodes => nodes

/-- Whether two optional trees are alike. -/
def agreesOption : Option Node → Option Node → Bool
  | none, none => true
  | some x, some y => agrees x y
  | _, _ => false
termination_by structural node => node
end

end JsPrune.Node
