import LdacsSdk.Core.Definitions

/-!
# Checksums

The two table-driven checksums of a stretch of bytes. The 8-bit one starts from zero and is not
inverted at the end; the 32-bit one starts from zero and is.
-/
namespace LdacsSdk

/-- `crc8_table`. -/
def crc8Table : List UInt8 :=
  [0x00, 0x97, 0xB9, 0x2E, 0xE5, 0x72, 0x5C, 0xCB, 0x5D, 0xCA, 0xE4, 0x73, 0xB8, 0x2F, 0x01,
   0x96, 0xBA, 0x2D, 0x03, 0x94, 0x5F, 0xC8, 0xE6, 0x71, 0xE7, 0x70, 0x5E, 0xC9, 0x02, 0x95,
   0xBB, 0x2C, 0xE3, 0x74, 0x5A, 0xCD, 0x06, 0x91, 0xBF, 0x28, 0xBE, 0x29, 0x07, 0x90, 0x5B,
   0xCC, 0xE2, 0x75, 0x59, 0xCE, 0xE0, 0x77, 0xBC, 0x2B, 0x05, 0x92, 0x04, 0x93, 0xBD, 0x2A,
   0xE1, 0x76, 0x58, 0xCF, 0x51, 0xC6, 0xE8, 0x7F, 0xB4, 0x23, 0x0D, 0x9A, 0x0C, 0x9B, 0xB5,
   0x22, 0xE9, 0x7E, 0x50, 0xC7, 0xEB, 0x7C, 0x52, 0xC5, 0x0E, 0x99, 0xB7, 0x20, 0xB6, 0x21,
   0x0F, 0x98, 0x53, 0xC4, 0xEA, 0x7D, 0xB2, 0x25, 0x0B, 0x9C, 0x57, 0xC0, 0xEE, 0x79, 0xEF,
   0x78, 0x56, 0xC1, 0x0A, 0x9D, 0xB3, 0x24, 0x08, 0x9F, 0xB1, 0x26, 0xED, 0x7A, 0x54, 0xC3,
   0x55, 0xC2, 0xEC, 0x7B, 0xB0, 0x27, 0x09, 0x9E, 0xA2, 0x35, 0x1B, 0x8C, 0x47, 0xD0, 0xFE,
   0x69, 0xFF, 0x68, 0x46, 0xD1, 0x1A, 0x8D, 0xA3, 0x34, 0x18, 0x8F, 0xA1, 0x36, 0xFD, 0x6A,
   0x44, 0xD3, 0x45, 0xD2, 0xFC, 0x6B, 0xA0, 0x37, 0x19, 0x8E, 0x41, 0xD6, 0xF8, 0x6F, 0xA4,
   0x33, 0x1D, 0x8A, 0x1C, 0x8B, 0xA5, 0x32, 0xF9, 0x6E, 0x40, 0xD7, 0xFB, 0x6C, 0x42, 0xD5,
   0x1E, 0x89, 0xA7, 0x30, 0xA6, 0x31, 0x1F, 0x88, 0x43, 0xD4, 0xFA, 0x6D, 0xF3, 0x64, 0x4A,
   0xDD, 0x16, 0x81, 0xAF, 0x38, 0xAE, 0x39, 0x17, 0x80, 0x4B, 0xDC, 0xF2, 0x65, 0x49, 0xDE,
   0xF0, 0x67, 0xAC, 0x3B, 0x15, 0x82, 0x14, 0x83, 0xAD, 0x3A, 0xF1, 0x66, 0x48, 0xDF, 0x10,
   0x87, 0xA9, 0x3E, 0xF5, 0x62, 0x4C, 0xDB, 0x4D, 0xDA, 0xF4, 0x63, 0xA8, 0x3F, 0x11, 0x86,
   0xAA, 0x3D, 0x13, 0x84, 0x4F, 0xD8, 0xF6, 0x61, 0xF7, 0x60, 0x4E, 0xD9, 0x12, 0x85, 0xAB,
   0x3C]

/-- `crc32_table`. -/
def crc32Table : List UInt32 :=
  [0x00000000, 0xCEA9C3D2, 0x69FF7CB7, 0xA756BF65, 0xD3FEF96E, 0x1D573ABC, 0xBA0185D9,
   0x74A8460B, 0x535109CF, 0x9DF8CA1D, 0x3AAE7578, 0xF407B6AA, 0x80AFF0A1, 0x4E063373,
   0xE9508C16, 0x27F94FC4, 0xA6A2139E, 0x680BD04C, 0xCF5D6F29, 0x01F4ACFB, 0x755CEAF0,
   0xBBF52922, 0x1CA39647, 0xD20A5595, 0xF5F31A51, 0x3B5AD983, 0x9C0C66E6, 0x52A5A534,
   0x260DE33F, 0xE8A420ED, 0x4FF29F88, 0x815B5C5A, 0xB9E8DC2F, 0x77411FFD, 0xD017A098,
   0x1EBE634A, 0x6A162541, 0xA4BFE693, 0x03E959F6, 0xCD409A24, 0xEAB9D5E0, 0x24101632,
   0x8346A957, 0x4DEF6A85, 0x39472C8E, 0xF7EEEF5C, 0x50B85039, 0x9E1193EB, 0x1F4ACFB1,
   0xD1E30C63, 0x76B5B306, 0xB81C70D4, 0xCCB436DF, 0x021DF50D, 0xA54B4A68, 0x6BE289BA,
   0x4C1BC67E, 0x82B205AC, 0x25E4BAC9, 0xEB4D791B, 0x9FE53F10, 0x514CFCC2, 0xF61A43A7,
   0x38B38075, 0x877D434D, 0x49D4809F, 0xEE823FFA, 0x202BFC28, 0x5483BA23, 0x9A2A79F1,
   0x3D7CC694, 0xF3D50546, 0xD42C4A82, 0x1A858950, 0xBDD33635, 0x737AF5E7, 0x07D2B3EC,
   0xC97B703E, 0x6E2DCF5B, 0xA0840C89, 0x21DF50D3, 0xEF769301, 0x48202C64, 0x8689EFB6,
   0xF221A9BD, 0x3C886A6F, 0x9BDED50A, 0x557716D8, 0x728E591C, 0xBC279ACE, 0x1B7125AB,
   0xD5D8E679, 0xA170A072, 0x6FD963A0, 0xC88FDCC5, 0x06261F17, 0x3E959F62, 0xF03C5CB0,
   0x576AE3D5, 0x99C32007, 0xED6B660C, 0x23C2A5DE, 0x84941ABB, 0x4A3DD969, 0x6DC496AD,
   0xA36D557F, 0x043BEA1A, 0xCA9229C8, 0xBE3A6FC3, 0x7093AC11, 0xD7C51374, 0x196CD0A6,
   0x98378CFC, 0x569E4F2E, 0xF1C8F04B, 0x3F613399, 0x4BC97592, 0x8560B640, 0x22360925,
   0xEC9FCAF7, 0xCB668533, 0x05CF46E1, 0xA299F984, 0x6C303A56, 0x18987C5D, 0xD631BF8F,
   0x716700EA, 0xBFCEC338, 0xFA567D89, 0x34FFBE5B, 0x93A9013E, 0x5D00C2EC, 0x29A884E7,
   0xE7014735, 0x4057F850, 0x8EFE3B82, 0xA9077446, 0x67AEB794, 0xC0F808F1, 0x0E51CB23,
   0x7AF98D28, 0xB4504EFA, 0x1306F19F, 0xDDAF324D, 0x5CF46E17, 0x925DADC5, 0x350B12A0,
   0xFBA2D172, 0x8F0A9779, 0x41A354AB, 0xE6F5EBCE, 0x285C281C, 0x0FA567D8, 0xC10CA40A,
   0x665A1B6F, 0xA8F3D8BD, 0xDC5B9EB6, 0x12F25D64, 0xB5A4E201, 0x7B0D21D3, 0x43BEA1A6,
   0x8D176274, 0x2A41DD11, 0xE4E81EC3, 0x904058C8, 0x5EE99B1A, 0xF9BF247F, 0x3716E7AD,
   0x10EFA869, 0xDE466BBB, 0x7910D4DE, 0xB7B9170C, 0xC3115107, 0x0DB892D5, 0xAAEE2DB0,
   0x6447EE62, 0xE51CB238, 0x2BB571EA, 0x8CE3CE8F, 0x424A0D5D, 0x36E24B56, 0xF84B8884,
   0x5F1D37E1, 0x91B4F433, 0xB64DBBF7, 0x78E47825, 0xDFB2C740, 0x111B0492, 0x65B34299,
   0xAB1A814B, 0x0C4C3E2E, 0xC2E5FDFC, 0x7D2B3EC4, 0xB382FD16, 0x14D44273, 0xDA7D81A1,
   0xAED5C7AA, 0x607C0478, 0xC72ABB1D, 0x098378CF, 0x2E7A370B, 0xE0D3F4D9, 0x47854BBC,
   0x892C886E, 0xFD84CE65, 0x332D0DB7, 0x947BB2D2, 0x5AD27100, 0xDB892D5A, 0x1520EE88,
   0xB27651ED, 0x7CDF923F, 0x0877D434, 0xC6DE17E6, 0x6188A883, 0xAF216B51, 0x88D82495,
   0x4671E747, 0xE1275822, 0x2F8E9BF0, 0x5B26DDFB, 0x958F1E29, 0x32D9A14C, 0xFC70629E,
   0xC4C3E2EB, 0x0A6A2139, 0xAD3C9E5C, 0x63955D8E, 0x173D1B85, 0xD994D857, 0x7EC26732,
   0xB06BA4E0, 0x9792EB24, 0x593B28F6, 0xFE6D9793, 0x30C45441, 0x446C124A, 0x8AC5D198,
   0x2D936EFD, 0xE33AAD2F, 0x6261F175, 0xACC832A7, 0x0B9E8DC2, 0xC5374E10, 0xB19F081B,
   0x7F36CBC9, 0xD86074AC, 0x16C9B77E, 0x3130F8BA, 0xFF993B68, 0x58CF840D, 0x966647DF,
   0xE2CE01D4, 0x2C67C206, 0x8B317D63, 0x4598BEB1]

/-- `cal_crc_8bits`, of the bytes from `start` up to `cur`. -/
def calCrc8bits (bytes : List UInt8) : UInt8 :=
  bytes.foldl (fun crc byte => crc8Table.getD (crc ^^^ byte).toNat 0) 0

/-- `cal_crc_32bits`, of the bytes from `start` up to `cur`. -/
def calCrc32bits (bytes : List UInt8) : UInt32 :=
  bytes.foldl (fun (crc : UInt32) byte =>
    crc >>> 8 ^^^ crc32Table.getD ((crc ^^^ byte.toUInt32) &&& 0xFF).toNat 0) 0 ^^^ 0xFFFFFFFF

end LdacsSdk
