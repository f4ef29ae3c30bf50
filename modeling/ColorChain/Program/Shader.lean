/-! Fixed shader texts. -/
namespace ColorChain.Shader

/-- The lines of a text, each ended by a line feed. -/
def unlines (lines : List String) : String := String.join (lines.map (· ++ "\n"))

/-- The conversions between colours and hue, saturation and lightness. -/
def conversions : String := unlines [
  "float hue2rgb(float p, float q, float hue) \x7b",
  "    float t = hue;",
  "    if (t < 0.0) t += 1.0;",
  "    if (t > 1.0) t -= 1.0;",
  "    if (t < 1.0 / 6.0) return p + (q - p) * 6.0 * t;",
  "    if (t < 1.0 / 2.0) return q;",
  "    if (t < 2.0 / 3.0) return p + (q - p) * (2.0 / 3.0 - t) * 6.0;",
  "    return p;",
  "\x7d",
  "",
  "vec3 hsl2rgb(vec3 c) \x7b",
  "    float h = c.x - floor(c.x);",
  "    float s = c.y;",
  "    float l = c.z;",
  "    if (s == 0.0) \x7b",
  "        return vec3(l, l, l);",
  "    \x7d",
  "    float q = l < 0.5 ? l * (1.0 + s) : l + s - l * s;",
  "    float p = 2.0 * l - q;",
  "    return vec3(",
  "        hue2rgb(p, q, h + 1.0 / 3.0),",
  "        hue2rgb(p, q, h),",
  "        hue2rgb(p, q, h - 1.0 / 3.0)",
  "    );",
  "\x7d",
  "",
  "vec3 rgb2hsl(vec3 c) \x7b",
  "    float mn = min(c.r, min(c.g, c.b));",
  "    float mx = max(c.r, max(c.g, c.b));",
  "    float l = (mx + mn) / 2.0;",
  "    float s = 0.0;",
  "    float h = 0.0;",
  "    if (mx != mn) \x7b",
  "        float d = mx - mn;",
  "        s = l < 0.5 ? d / (mx + mn) : d / (2.0 - mx - mn);",
  "        if (c.r == mx) \x7b",
  "            h = (c.g - c.b) / d;",
  "        \x7d else if (c.g == mx) \x7b",
  "            h = 2.0 + (c.b - c.r) / d;",
  "        \x7d else \x7b",
  "            h = 4.0 + (c.r - c.g) / d;",
  "        \x7d",
  "        h = h / 6.0;",
  "        if (h < 0.0) h += 1.0;",
  "    \x7d",
  "    return vec3(h, s, l);",
  "\x7d"]

/-- The vertex stage: passes each vertex's hue, saturation and lightness on. -/
def vertexStage : String := unlines [
  "#version 450",
  "layout(location = 0) in vec2 a_position;",
  "layout(location = 1) in vec3 a_hsl;",
  "layout(location = 0) out vec3 v_hsl;",
  "",
  "void main() \x7b",
  "    v_hsl = a_hsl;",
  "    gl_Position = vec4(a_position, 0.0, 1.0);",
  "\x7d"]

end ColorChain.Shader
