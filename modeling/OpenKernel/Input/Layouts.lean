import Mathlib.Init

/-!
# Keyboard layouts

The tables of `keyboard.c` from scancodes to characters, ten codes to a line.
Each has the characters of the scancodes 0 to 59; 0 is no character.
-/

namespace OpenKernel.Input

inductive Layout
  | us
  | uk
  | it
  | fr
  | de
  | es
  | pt
  | no
  | dk
  | se
  | fi
  | nl
  | be
  | pl
  | cz
  | sk
  | hu
  | ro
  | tr
  deriving DecidableEq, Repr

def scancodeAsciiLowerUs : List UInt8 := [
  0, 0, 49, 50, 51, 52, 53, 54, 55, 56,
  57, 48, 45, 61, 0, 0, 113, 119, 101, 114,
  116, 121, 117, 105, 111, 112, 91, 93, 10, 0,
  97, 115, 100, 102, 103, 104, 106, 107, 108, 59,
  39, 96, 0, 92, 122, 120, 99, 118, 98, 110,
  109, 44, 46, 47, 0, 42, 0, 32, 0, 0]

def scancodeAsciiUpperUs : List UInt8 := [
  0, 0, 33, 64, 35, 36, 37, 94, 38, 42,
  40, 41, 95, 43, 0, 0, 81, 87, 69, 82,
  84, 89, 85, 73, 79, 80, 123, 125, 10, 0,
  65, 83, 68, 70, 71, 72, 74, 75, 76, 58,
  34, 126, 0, 124, 90, 88, 67, 86, 66, 78,
  77, 60, 62, 63, 0, 42, 0, 32, 0, 0]

def scancodeAsciiLowerUk : List UInt8 := [
  0, 0, 49, 50, 51, 52, 53, 54, 55, 56,
  57, 48, 45, 61, 0, 0, 113, 119, 101, 114,
  116, 121, 117, 105, 111, 112, 91, 93, 10, 0,
  97, 115, 100, 102, 103, 104, 106, 107, 108, 59,
  39, 96, 0, 35, 122, 120, 99, 118, 98, 110,
  109, 44, 46, 47, 0, 42, 0, 32, 0, 0]

def scancodeAsciiUpperUk : List UInt8 := [
  0, 0, 33, 34, 163, 36, 37, 94, 38, 42,
  40, 41, 95, 43, 0, 0, 81, 87, 69, 82,
  84, 89, 85, 73, 79, 80, 123, 125, 10, 0,
  65, 83, 68, 70, 71, 72, 74, 75, 76, 58,
  64, 126, 0, 126, 90, 88, 67, 86, 66, 78,
  77, 60, 62, 63, 0, 42, 0, 32, 0, 0]

def scancodeAsciiLowerIt : List UInt8 := [
  0, 0, 49, 50, 51, 52, 53, 54, 55, 56,
  57, 48, 39, 105, 0, 0, 113, 119, 101, 114,
  116, 121, 117, 105, 111, 112, 101, 43, 10, 0,
  97, 115, 100, 102, 103, 104, 106, 107, 108, 111,
  97, 92, 0, 117, 122, 120, 99, 118, 98, 110,
  109, 44, 46, 45, 0, 42, 0, 32, 0, 0]

def scancodeAsciiUpperIt : List UInt8 := [
  0, 0, 33, 34, 35, 36, 37, 38, 47, 40,
  41, 61, 63, 94, 0, 0, 81, 87, 69, 82,
  84, 89, 85, 73, 79, 80, 69, 42, 10, 0,
  65, 83, 68, 70, 71, 72, 74, 75, 76, 67,
  79, 124, 0, 83, 90, 88, 67, 86, 66, 78,
  77, 59, 58, 95, 0, 42, 0, 32, 0, 0]

def scancodeAsciiLowerFr : List UInt8 := [
  0, 0, 38, 130, 34, 39, 40, 45, 138, 95,
  135, 133, 41, 61, 0, 0, 97, 122, 101, 114,
  116, 121, 117, 105, 111, 112, 94, 36, 10, 0,
  113, 115, 100, 102, 103, 104, 106, 107, 108, 109,
  151, 94, 0, 42, 119, 120, 99, 118, 98, 110,
  44, 59, 58, 33, 0, 42, 0, 32, 0, 0]

def scancodeAsciiUpperFr : List UInt8 := [
  0, 0, 49, 50, 51, 52, 53, 54, 55, 56,
  57, 48, 176, 43, 0, 0, 65, 90, 69, 82,
  84, 89, 85, 73, 79, 80, 168, 163, 10, 0,
  81, 83, 68, 70, 71, 72, 74, 75, 76, 77,
  151, 168, 0, 0, 87, 88, 67, 86, 66, 78,
  63, 46, 47, 35, 0, 42, 0, 32, 0, 0]

def scancodeAsciiLowerDe : List UInt8 := [
  0, 0, 49, 50, 51, 52, 53, 54, 55, 56,
  57, 48, 225, 39, 0, 0, 113, 119, 101, 114,
  116, 122, 117, 105, 111, 112, 129, 43, 10, 0,
  97, 115, 100, 102, 103, 104, 106, 107, 108, 148,
  132, 94, 0, 35, 121, 120, 99, 118, 98, 110,
  109, 44, 46, 45, 0, 42, 0, 32, 0, 0]

def scancodeAsciiUpperDe : List UInt8 := [
  0, 0, 33, 34, 35, 36, 37, 38, 47, 40,
  41, 61, 63, 96, 0, 0, 81, 87, 69, 82,
  84, 90, 85, 73, 79, 80, 154, 42, 10, 0,
  65, 83, 68, 70, 71, 72, 74, 75, 76, 153,
  142, 94, 0, 39, 89, 88, 67, 86, 66, 78,
  77, 59, 58, 95, 0, 42, 0, 32, 0, 0]

def scancodeAsciiLowerEs : List UInt8 := [
  0, 0, 49, 50, 51, 52, 53, 54, 55, 56,
  57, 48, 39, 173, 0, 0, 113, 119, 101, 114,
  116, 121, 117, 105, 111, 112, 96, 43, 10, 0,
  97, 115, 100, 102, 103, 104, 106, 107, 108, 164,
  160, 176, 0, 135, 122, 120, 99, 118, 98, 110,
  109, 44, 46, 45, 0, 42, 0, 32, 0, 0]

def scancodeAsciiUpperEs : List UInt8 := [
  0, 0, 33, 34, 167, 36, 37, 38, 47, 40,
  41, 61, 63, 168, 0, 0, 81, 87, 69, 82,
  84, 89, 85, 73, 79, 80, 94, 42, 10, 0,
  65, 83, 68, 70, 71, 72, 74, 75, 76, 165,
  162, 167, 0, 128, 90, 88, 67, 86, 66, 78,
  77, 59, 58, 95, 0, 42, 0, 32, 0, 0]

def scancodeAsciiLowerPt : List UInt8 := [
  0, 0, 49, 50, 51, 52, 53, 54, 55, 56,
  57, 48, 39, 174, 0, 0, 113, 119, 101, 114,
  116, 121, 117, 105, 111, 112, 43, 39, 10, 0,
  97, 115, 100, 102, 103, 104, 106, 107, 108, 135,
  176, 170, 0, 126, 122, 120, 99, 118, 98, 110,
  109, 44, 46, 45, 0, 42, 0, 32, 0, 0]

def scancodeAsciiUpperPt : List UInt8 := [
  0, 0, 33, 34, 35, 36, 37, 38, 47, 40,
  41, 61, 63, 175, 0, 0, 81, 87, 69, 82,
  84, 89, 85, 73, 79, 80, 42, 63, 10, 0,
  65, 83, 68, 70, 71, 72, 74, 75, 76, 135,
  94, 167, 0, 94, 90, 88, 67, 86, 66, 78,
  77, 59, 58, 95, 0, 42, 0, 32, 0, 0]

def scancodeAsciiLowerNo : List UInt8 := [
  0, 0, 49, 50, 51, 52, 53, 54, 55, 56,
  57, 48, 43, 92, 0, 0, 113, 119, 101, 114,
  116, 121, 117, 105, 111, 112, 134, 94, 10, 0,
  97, 115, 100, 102, 103, 104, 106, 107, 108, 148,
  132, 39, 0, 42, 122, 120, 99, 118, 98, 110,
  109, 44, 46, 45, 0, 42, 0, 32, 0, 0]

def scancodeAsciiUpperNo : List UInt8 := [
  0, 0, 33, 34, 35, 36, 37, 38, 47, 40,
  41, 61, 63, 96, 0, 0, 81, 87, 69, 82,
  84, 89, 85, 73, 79, 80, 143, 94, 10, 0,
  65, 83, 68, 70, 71, 72, 74, 75, 76, 153,
  142, 42, 0, 42, 90, 88, 67, 86, 66, 78,
  77, 59, 58, 95, 0, 42, 0, 32, 0, 0]

def scancodeAsciiLowerDk : List UInt8 := [
  0, 0, 49, 50, 51, 52, 53, 54, 55, 56,
  57, 48, 43, 92, 0, 0, 113, 119, 101, 114,
  116, 121, 117, 105, 111, 112, 134, 94, 10, 0,
  97, 115, 100, 102, 103, 104, 106, 107, 108, 132,
  148, 39, 0, 42, 122, 120, 99, 118, 98, 110,
  109, 44, 46, 45, 0, 42, 0, 32, 0, 0]

def scancodeAsciiUpperDk : List UInt8 := [
  0, 0, 33, 34, 35, 36, 37, 38, 47, 40,
  41, 61, 63, 96, 0, 0, 81, 87, 69, 82,
  84, 89, 85, 73, 79, 80, 143, 94, 10, 0,
  65, 83, 68, 70, 71, 72, 74, 75, 76, 142,
  153, 42, 0, 42, 90, 88, 67, 86, 66, 78,
  77, 59, 58, 95, 0, 42, 0, 32, 0, 0]

def scancodeAsciiLowerSe : List UInt8 := [
  0, 0, 49, 50, 51, 52, 53, 54, 55, 56,
  57, 48, 43, 39, 0, 0, 113, 119, 101, 114,
  116, 121, 117, 105, 111, 112, 134, 94, 10, 0,
  97, 115, 100, 102, 103, 104, 106, 107, 108, 148,
  132, 39, 0, 42, 122, 120, 99, 118, 98, 110,
  109, 44, 46, 45, 0, 42, 0, 32, 0, 0]

def scancodeAsciiUpperSe : List UInt8 := [
  0, 0, 33, 34, 35, 36, 37, 38, 47, 40,
  41, 61, 63, 96, 0, 0, 81, 87, 69, 82,
  84, 89, 85, 73, 79, 80, 143, 94, 10, 0,
  65, 83, 68, 70, 71, 72, 74, 75, 76, 153,
  142, 42, 0, 42, 90, 88, 67, 86, 66, 78,
  77, 59, 58, 95, 0, 42, 0, 32, 0, 0]

def scancodeAsciiLowerFi : List UInt8 := [
  0, 0, 49, 50, 51, 52, 53, 54, 55, 56,
  57, 48, 43, 39, 0, 0, 113, 119, 101, 114,
  116, 121, 117, 105, 111, 112, 134, 94, 10, 0,
  97, 115, 100, 102, 103, 104, 106, 107, 108, 148,
  132, 39, 0, 42, 122, 120, 99, 118, 98, 110,
  109, 44, 46, 45, 0, 42, 0, 32, 0, 0]

def scancodeAsciiUpperFi : List UInt8 := [
  0, 0, 33, 34, 35, 36, 37, 38, 47, 40,
  41, 61, 63, 96, 0, 0, 81, 87, 69, 82,
  84, 89, 85, 73, 79, 80, 143, 94, 10, 0,
  65, 83, 68, 70, 71, 72, 74, 75, 76, 153,
  142, 42, 0, 42, 90, 88, 67, 86, 66, 78,
  77, 59, 58, 95, 0, 42, 0, 32, 0, 0]

def scancodeAsciiLowerNl : List UInt8 := [
  0, 0, 49, 50, 51, 52, 53, 54, 55, 56,
  57, 48, 45, 61, 0, 0, 113, 119, 101, 114,
  116, 121, 117, 105, 111, 112, 91, 93, 10, 0,
  97, 115, 100, 102, 103, 104, 106, 107, 108, 59,
  39, 96, 0, 92, 122, 120, 99, 118, 98, 110,
  109, 44, 46, 47, 0, 42, 0, 32, 0, 0]

def scancodeAsciiUpperNl : List UInt8 := [
  0, 0, 33, 34, 35, 36, 37, 38, 42, 40,
  41, 95, 43, 61, 0, 0, 81, 87, 69, 82,
  84, 89, 85, 73, 79, 80, 123, 125, 10, 0,
  65, 83, 68, 70, 71, 72, 74, 75, 76, 58,
  34, 126, 0, 124, 90, 88, 67, 86, 66, 78,
  77, 60, 62, 63, 0, 42, 0, 32, 0, 0]

def scancodeAsciiLowerBe : List UInt8 := [
  0, 0, 38, 130, 34, 39, 40, 35, 138, 33,
  135, 133, 41, 45, 0, 0, 97, 122, 101, 114,
  116, 121, 117, 105, 111, 112, 94, 36, 10, 0,
  113, 115, 100, 102, 103, 104, 106, 107, 108, 109,
  151, 96, 0, 163, 119, 120, 99, 118, 98, 110,
  44, 59, 58, 61, 0, 42, 0, 32, 0, 0]

def scancodeAsciiUpperBe : List UInt8 := [
  0, 0, 49, 50, 51, 52, 53, 54, 55, 56,
  57, 48, 94, 43, 0, 0, 65, 90, 69, 82,
  84, 89, 85, 73, 79, 80, 168, 42, 10, 0,
  81, 83, 68, 70, 71, 72, 74, 75, 76, 77,
  37, 126, 0, 124, 87, 88, 67, 86, 66, 78,
  63, 46, 47, 43, 0, 42, 0, 32, 0, 0]

def scancodeAsciiLowerPl : List UInt8 := [
  0, 0, 49, 50, 51, 52, 53, 54, 55, 56,
  57, 48, 45, 61, 0, 0, 113, 119, 101, 114,
  116, 121, 117, 105, 111, 112, 91, 93, 10, 0,
  97, 115, 100, 102, 103, 104, 106, 107, 108, 59,
  39, 96, 0, 92, 122, 120, 99, 118, 98, 110,
  109, 44, 46, 47, 0, 42, 0, 32, 0, 0]

def scancodeAsciiUpperPl : List UInt8 := [
  0, 0, 33, 34, 35, 36, 37, 38, 42, 40,
  41, 95, 43, 61, 0, 0, 81, 87, 69, 82,
  84, 89, 85, 73, 79, 80, 123, 125, 10, 0,
  65, 83, 68, 70, 71, 72, 74, 75, 76, 58,
  34, 126, 0, 124, 90, 88, 67, 86, 66, 78,
  77, 60, 62, 63, 0, 42, 0, 32, 0, 0]

def scancodeAsciiLowerCz : List UInt8 := [
  0, 0, 43, 49, 50, 51, 52, 53, 54, 55,
  56, 57, 48, 61, 0, 0, 113, 119, 101, 114,
  116, 122, 117, 105, 111, 112, 139, 40, 10, 0,
  97, 115, 100, 102, 103, 104, 106, 107, 108, 148,
  151, 35, 0, 39, 121, 120, 99, 118, 98, 110,
  109, 44, 46, 45, 0, 42, 0, 32, 0, 0]

def scancodeAsciiUpperCz : List UInt8 := [
  0, 0, 49, 50, 51, 52, 53, 54, 55, 56,
  57, 48, 37, 126, 0, 0, 81, 87, 69, 82,
  84, 90, 85, 73, 79, 80, 47, 40, 10, 0,
  65, 83, 68, 70, 71, 72, 74, 75, 76, 34,
  33, 94, 0, 41, 89, 88, 67, 86, 66, 78,
  77, 63, 58, 95, 0, 42, 0, 32, 0, 0]

def scancodeAsciiLowerSk : List UInt8 := [
  0, 0, 43, 49, 50, 51, 52, 53, 54, 55,
  56, 57, 48, 61, 0, 0, 113, 119, 101, 114,
  116, 122, 117, 105, 111, 112, 139, 40, 10, 0,
  97, 115, 100, 102, 103, 104, 106, 107, 108, 148,
  151, 35, 0, 39, 121, 120, 99, 118, 98, 110,
  109, 44, 46, 45, 0, 42, 0, 32, 0, 0]

def scancodeAsciiUpperSk : List UInt8 := [
  0, 0, 49, 50, 51, 52, 53, 54, 55, 56,
  57, 48, 37, 126, 0, 0, 81, 87, 69, 82,
  84, 90, 85, 73, 79, 80, 47, 40, 10, 0,
  65, 83, 68, 70, 71, 72, 74, 75, 76, 34,
  33, 94, 0, 41, 89, 88, 67, 86, 66, 78,
  77, 63, 58, 95, 0, 42, 0, 32, 0, 0]

def scancodeAsciiLowerHu : List UInt8 := [
  0, 0, 49, 50, 51, 52, 53, 54, 55, 56,
  57, 48, 148, 154, 0, 0, 113, 119, 101, 114,
  116, 122, 117, 105, 111, 112, 148, 154, 10, 0,
  97, 115, 100, 102, 103, 104, 106, 107, 108, 148,
  129, 48, 0, 129, 121, 120, 99, 118, 98, 110,
  109, 44, 46, 45, 0, 42, 0, 32, 0, 0]

def scancodeAsciiUpperHu : List UInt8 := [
  0, 0, 39, 34, 43, 33, 37, 47, 61, 40,
  41, 35, 153, 154, 0, 0, 81, 87, 69, 82,
  84, 90, 85, 73, 79, 80, 153, 154, 10, 0,
  65, 83, 68, 70, 71, 72, 74, 75, 76, 153,
  154, 36, 0, 154, 89, 88, 67, 86, 66, 78,
  77, 59, 58, 95, 0, 42, 0, 32, 0, 0]

def scancodeAsciiLowerRo : List UInt8 := [
  0, 0, 49, 50, 51, 52, 53, 54, 55, 56,
  57, 48, 45, 61, 0, 0, 113, 119, 101, 114,
  116, 121, 117, 105, 111, 112, 131, 93, 10, 0,
  97, 115, 100, 102, 103, 104, 106, 107, 108, 131,
  132, 96, 0, 92, 122, 120, 99, 118, 98, 110,
  109, 44, 46, 47, 0, 42, 0, 32, 0, 0]

def scancodeAsciiUpperRo : List UInt8 := [
  0, 0, 33, 34, 35, 36, 37, 38, 42, 40,
  41, 95, 43, 61, 0, 0, 81, 87, 69, 82,
  84, 89, 85, 73, 79, 80, 131, 125, 10, 0,
  65, 83, 68, 70, 71, 72, 74, 75, 76, 131,
  142, 126, 0, 124, 90, 88, 67, 86, 66, 78,
  77, 59, 58, 63, 0, 42, 0, 32, 0, 0]

def scancodeAsciiLowerTr : List UInt8 := [
  0, 0, 49, 50, 51, 52, 53, 54, 55, 56,
  57, 48, 42, 45, 0, 0, 113, 119, 101, 114,
  116, 121, 117, 105, 111, 112, 139, 36, 10, 0,
  97, 115, 100, 102, 103, 104, 106, 107, 108, 59,
  34, 44, 0, 60, 122, 120, 99, 118, 98, 110,
  109, 148, 99, 46, 0, 42, 0, 32, 0, 0]

def scancodeAsciiUpperTr : List UInt8 := [
  0, 0, 33, 39, 94, 43, 37, 38, 47, 40,
  41, 61, 63, 95, 0, 0, 81, 87, 69, 82,
  84, 89, 85, 73, 79, 80, 139, 33, 10, 0,
  65, 83, 68, 70, 71, 72, 74, 75, 76, 58,
  34, 42, 0, 62, 90, 88, 67, 86, 66, 78,
  77, 153, 67, 58, 0, 42, 0, 32, 0, 0]

/-- The table of a layout without Shift. -/
def Layout.lower : Layout → List UInt8
  | .us => scancodeAsciiLowerUs
  | .uk => scancodeAsciiLowerUk
  | .it => scancodeAsciiLowerIt
  | .fr => scancodeAsciiLowerFr
  | .de => scancodeAsciiLowerDe
  | .es => scancodeAsciiLowerEs
  | .pt => scancodeAsciiLowerPt
  | .no => scancodeAsciiLowerNo
  | .dk => scancodeAsciiLowerDk
  | .se => scancodeAsciiLowerSe
  | .fi => scancodeAsciiLowerFi
  | .nl => scancodeAsciiLowerNl
  | .be => scancodeAsciiLowerBe
  | .pl => scancodeAsciiLowerPl
  | .cz => scancodeAsciiLowerCz
  | .sk => scancodeAsciiLowerSk
  | .hu => scancodeAsciiLowerHu
  | .ro => scancodeAsciiLowerRo
  | .tr => scancodeAsciiLowerTr

/-- The table of a layout with Shift. -/
def Layout.upper : Layout → List UInt8
  | .us => scancodeAsciiUpperUs
  | .uk => scancodeAsciiUpperUk
  | .it => scancodeAsciiUpperIt
  | .fr => scancodeAsciiUpperFr
  | .de => scancodeAsciiUpperDe
  | .es => scancodeAsciiUpperEs
  | .pt => scancodeAsciiUpperPt
  | .no => scancodeAsciiUpperNo
  | .dk => scancodeAsciiUpperDk
  | .se => scancodeAsciiUpperSe
  | .fi => scancodeAsciiUpperFi
  | .nl => scancodeAsciiUpperNl
  | .be => scancodeAsciiUpperBe
  | .pl => scancodeAsciiUpperPl
  | .cz => scancodeAsciiUpperCz
  | .sk => scancodeAsciiUpperSk
  | .hu => scancodeAsciiUpperHu
  | .ro => scancodeAsciiUpperRo
  | .tr => scancodeAsciiUpperTr

end OpenKernel.Input
